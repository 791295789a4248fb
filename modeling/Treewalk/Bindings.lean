/-!
# Bindings

Finite maps from names, as association lists with at most one entry per name once built by
`insert`. The view is `find?`.
-/
namespace Treewalk

/-- Names with what they stand for. -/
structure Bindings (α : Type) where
  entries : List (String × α) := []
deriving Repr

namespace Bindings
variable {α : Type}

instance : Inhabited (Bindings α) := ⟨{}⟩

/-- No names at all. -/
def empty : Bindings α := {}

/-- The entry of a name in a list of entries. -/
def lookup (name : String) : List (String × α) → Option α
  | [] => none
  | (n, a) :: rest => if n = name then some a else lookup name rest

/-- Replaces the entry of a name, or adds one at the end. -/
def put (name : String) (a : α) : List (String × α) → List (String × α)
  | [] => [(name, a)]
  | (n, b) :: rest => if n = name then (n, a) :: rest else (n, b) :: put name a rest

/-- What a name stands for, if anything. -/
def find? (b : Bindings α) (name : String) : Option α := lookup name b.entries

/-- Whether a name is bound. -/
def contains (b : Bindings α) (name : String) : Bool := (b.find? name).isSome

/-- Binds a name, over whatever it stood for. -/
def insert (b : Bindings α) (name : String) (a : α) : Bindings α := ⟨put name a b.entries⟩

/-- The bound names. -/
def names (b : Bindings α) : List String := b.entries.map Prod.fst

@[simp] theorem find?_empty (name : String) : (empty : Bindings α).find? name = none := rfl

theorem lookup_put (name other : String) (a : α) (entries : List (String × α)) :
    lookup other (put name a entries) = if name = other then some a else lookup other entries := by
  induction entries with
  | nil => simp [put, lookup]
  | cons e rest ih =>
      obtain ⟨n, b⟩ := e
      by_cases h : n = name
      · subst h
        by_cases h' : n = other <;> simp [put, lookup, h']
      · by_cases h' : n = other
        · subst h'
          simp [put, lookup, h, Ne.symm h]
        · simp [put, lookup, h, h', ih]

/-- Inserting changes the one name and no other. -/
theorem find?_insert (b : Bindings α) (name other : String) (a : α) :
    (b.insert name a).find? other = if name = other then some a else b.find? other :=
  lookup_put name other a b.entries

@[simp] theorem find?_insert_self (b : Bindings α) (name : String) (a : α) :
    (b.insert name a).find? name = some a := by simp [find?_insert]

theorem contains_insert (b : Bindings α) (name other : String) (a : α) :
    (b.insert name a).contains other = (decide (name = other) || b.contains other) := by
  by_cases h : name = other <;> simp [contains, find?_insert, h]

theorem mem_names (b : Bindings α) (name : String) : name ∈ b.names ↔ b.contains name = true := by
  obtain ⟨entries⟩ := b
  unfold names contains find?
  induction entries with
  | nil => simp [lookup]
  | cons e rest ih =>
      obtain ⟨n, b⟩ := e
      by_cases h : n = name
      · simp [lookup, h]
      · rw [List.map_cons, List.mem_cons, ih, lookup, if_neg h]
        exact or_iff_right (Ne.symm h)

end Bindings
end Treewalk
