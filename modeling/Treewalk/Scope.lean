import Treewalk.Store
import Treewalk.Bindings
import Treewalk.Text.Quoted

/-!
# Scopes

A scope binds names and has a parent, the scope around it; scopes are shared by reference. A parent
is always older than its children, so the way outward is at most as long as a scope's index, which
bounds every walk.
-/
namespace Treewalk

/-- Names with their values and the scope around. -/
structure Scope (α : Type) where
  values : Bindings α := {}
  parent : Option (Ref .scope) := none
deriving Repr

instance {α : Type} : Inhabited (Scope α) := ⟨{}⟩

/-- All scopes. -/
abbrev Scopes (α : Type) := Arena .scope (Scope α)

namespace Scopes
variable {α : Type}

/-- Makes an empty scope inside another one. -/
def addChild (s : Scopes α) (parent : Option (Ref .scope)) : Scopes α :=
  s.add { parent := parent }

/-- Binds a name in a scope, over what it stood for there. -/
def define (s : Scopes α) (r : Ref .scope) (name : String) (a : α) : Scopes α :=
  s.set r { s.get r with values := (s.get r).values.insert name a }

/-- The value of a name in one scope. -/
def find? (s : Scopes α) (r : Ref .scope) (name : String) : Option α := (s.get r).values.find? name

/-- Whether a scope itself binds a name. -/
def contains (s : Scopes α) (r : Ref .scope) (name : String) : Bool :=
  (s.get r).values.contains name

/-- The nearest scope outward that binds a name, within `fuel` steps. -/
def holderWithin (s : Scopes α) (name : String) : Nat → Ref .scope → Option (Ref .scope)
  | 0, _ => none
  | fuel + 1, r =>
      if s.contains r name then some r
      else
        match (s.get r).parent with
        | some p => holderWithin s name fuel p
        | none => none

/-- The nearest scope outward that binds a name. -/
def holder? (s : Scopes α) (r : Ref .scope) (name : String) : Option (Ref .scope) :=
  s.holderWithin name (r.index + 1) r

/-- The value of a name, looked up outward. -/
def load? (s : Scopes α) (r : Ref .scope) (name : String) : Option α :=
  (s.holder? r name).bind fun h => s.find? h name

/-- Changes the nearest binding of a name, if there is one. -/
def store? (s : Scopes α) (r : Ref .scope) (name : String) (a : α) : Option (Scopes α) :=
  (s.holder? r name).map fun h => s.define h name a

/-- The scope so many steps outward, unless the way is shorter. -/
def ancestor? (s : Scopes α) : Nat → Ref .scope → Option (Ref .scope)
  | 0, r => some r
  | distance + 1, r =>
      match (s.get r).parent with
      | some p => ancestor? s distance p
      | none => none

/-- The length of the way outward, counted up to `fuel`. -/
def depthWithin (s : Scopes α) : Nat → Ref .scope → Nat
  | 0, _ => 0
  | fuel + 1, r =>
      match (s.get r).parent with
      | some p => depthWithin s fuel p + 1
      | none => 0

/-- The number of scopes around a scope. -/
def depth (s : Scopes α) (r : Ref .scope) : Nat := s.depthWithin r.index r

/-- Names in the order of their code points. -/
def sortNames (names : List String) : List String := names.mergeSort (· ≤ ·)

/-- A scope as text, with its names and its depth. -/
def describe (s : Scopes α) (r : Ref .scope) : String :=
  let names := (sortNames (s.get r).values.names).map Text.quote
  "<Environment [" ++ ", ".intercalate names ++ "] depth=" ++ toString (s.depth r) ++ ">"

theorem find?_define_self (s : Scopes α) {r : Ref .scope} (name : String) (a : α)
    (h : r.index < s.size) : (s.define r name a).find? r name = some a := by
  simp [find?, define, Arena.get_set_self _ _ h]

theorem get_define_of_ne (s : Scopes α) {r r' : Ref .scope} (name : String) (a : α) (h : r ≠ r') :
    (s.define r name a).get r' = s.get r' :=
  Arena.get_set_of_ne _ _ h

/-- Binding a name moves no scope. -/
theorem parent_define (s : Scopes α) {r : Ref .scope} (r' : Ref .scope) (name : String) (a : α)
    (h : r.index < s.size) : ((s.define r name a).get r').parent = (s.get r').parent := by
  by_cases e : r = r'
  · subst e
    simp [define, Arena.get_set_self _ _ h]
  · rw [get_define_of_ne s name a e]

@[simp] theorem ancestor?_zero (s : Scopes α) (r : Ref .scope) : s.ancestor? 0 r = some r := rfl

end Scopes
end Treewalk
