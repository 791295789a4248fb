/-!
# Arenas and references

Objects live in arenas and are denoted by references, which are positions. Objects are only ever
added or changed in place, so a reference once given out stays good; equality of references is
identity of objects. A reference that was never given out reads as the default object.
-/
namespace Treewalk

/-- What a reference refers to. -/
inductive RefKind
  | scope | function | «class» | «instance» | module | interpreter | loader
deriving DecidableEq, Repr

/-- A reference into the arena of a kind. -/
structure Ref (kind : RefKind) where
  index : Nat
deriving DecidableEq, Repr, Inhabited

/-- The objects of a kind, in the order in which they were made. -/
structure Arena (kind : RefKind) (α : Type) where
  items : Array α := #[]

namespace Arena
variable {kind : RefKind} {α : Type}

instance : Inhabited (Arena kind α) := ⟨{}⟩

/-- The number of objects. -/
def size (a : Arena kind α) : Nat := a.items.size

/-- The object of a reference. -/
def get [Inhabited α] (a : Arena kind α) (r : Ref kind) : α := a.items.getD r.index default

/-- Adds an object. -/
def add (a : Arena kind α) (x : α) : Arena kind α := ⟨a.items.push x⟩

/-- The reference that the next object gets. -/
def next (a : Arena kind α) : Ref kind := ⟨a.items.size⟩

/-- Replaces the object of a reference. -/
def set (a : Arena kind α) (r : Ref kind) (x : α) : Arena kind α :=
  ⟨a.items.setIfInBounds r.index x⟩

@[simp] theorem size_add (a : Arena kind α) (x : α) : (a.add x).size = a.size + 1 := by
  simp [size, add]

@[simp] theorem size_set (a : Arena kind α) (r : Ref kind) (x : α) : (a.set r x).size = a.size := by
  simp [size, set]

theorem get_add_next [Inhabited α] (a : Arena kind α) (x : α) : (a.add x).get a.next = x := by
  simp [get, add, next]

theorem get_add_of_lt [Inhabited α] (a : Arena kind α) (x : α) {r : Ref kind}
    (h : r.index < a.size) : (a.add x).get r = a.get r := by
  simp only [size] at h
  simp [get, add, Array.getElem?_push, Nat.ne_of_lt h]

theorem get_set_self [Inhabited α] (a : Arena kind α) (x : α) {r : Ref kind}
    (h : r.index < a.size) : (a.set r x).get r = x := by
  simp only [size] at h
  simp [get, set, h]

theorem get_set_of_ne [Inhabited α] (a : Arena kind α) (x : α) {r r' : Ref kind} (h : r ≠ r') :
    (a.set r x).get r' = a.get r' := by
  have : r.index ≠ r'.index := fun e => h (by cases r; cases r'; simp_all)
  simp [get, set, this]

end Arena
end Treewalk
