import Treewalk.Tree
import Treewalk.Scope

/-!
# Values

What expressions evaluate to. Everything but nil, booleans, numbers and strings is an object and
denoted by reference; two objects are equal only if they are the same one.
-/
namespace Treewalk

/-- Values. The one built-in function exists once per interpreter. -/
inductive Value
  | nil
  | bool (b : Bool)
  | number (x : Float)
  | text (s : String)
  | clock (home : Ref .interpreter)
  | function (r : Ref .function)
  | class (r : Ref .class)
  | instance (r : Ref .instance)
  | module (r : Ref .module)
deriving Repr, Inhabited

/-- The name of the built-in function that tells the time. -/
def clockName : String := "clock"

/-- The value of a literal. -/
def Literal.value : Literal → Value
  | .nil => .nil
  | .bool b => .bool b
  | .number x => .number x
  | .text s => .text s

namespace Value

/-- Only nil and false count as false. -/
def truthy : Value → Bool
  | .nil => Bool.false
  | .bool b => b
  | _ => Bool.true

/-- Whether a value is a number. -/
def isNumber : Value → Bool
  | .number _ => Bool.true
  | _ => Bool.false

/-- Equality as programs see it: values of different types differ, and so do a number that is no
number and itself. -/
def same : Value → Value → Bool
  | .nil, .nil => Bool.true
  | .bool a, .bool b => a == b
  | .number a, .number b => a == b
  | .text a, .text b => a == b
  | .clock a, .clock b => a == b
  | .function a, .function b => a == b
  | .class a, .class b => a == b
  | .instance a, .instance b => a == b
  | .module a, .module b => a == b
  | _, _ => Bool.false

end Value

/-- A function with the scope it was made in and the interpreter that runs it. -/
structure Closure where
  declaration : FunctionDecl
  scope : Ref .scope
  home : Ref .interpreter
  isInitializer : Bool := false
deriving Repr, Inhabited

namespace Closure

/-- The number of parameters. -/
def arity (f : Closure) : Nat := f.declaration.parameters.length

end Closure

/-- A class with its own methods. -/
structure ClassObject where
  name : String
  superclass : Option (Ref .class) := none
  methods : Bindings Closure := {}
deriving Repr, Inhabited

/-- An instance of a class with its fields. -/
structure InstanceObject where
  classRef : Ref .class
  fields : Bindings Value := {}
deriving Repr, Inhabited

/-- An imported module; its members are the globals of the interpreter that ran it. -/
structure ModuleObject where
  name : String
  path : String
  home : Ref .interpreter
deriving Repr, Inhabited

end Treewalk
