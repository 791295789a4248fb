import Treewalk.Tree
import Treewalk.Bindings
import Treewalk.Notice

/-!
# Static scopes

The state of name resolution: the open scopes, innermost first, each with its names and which of
them are constants; the globals; and what surrounds the construct being resolved. Scopes,
functions, classes and loops are entered and left by combinators that restore what they change.
-/
namespace Treewalk

/-- A scope: its names, each with whether its declaration is complete, and its constants. -/
structure StaticScope where
  names : Bindings Bool := {}
  constants : List String := []
deriving Repr, Inhabited

/-- The innermost function around a construct. -/
inductive FunctionContext
  | none | function | lambda | initializer | method
deriving DecidableEq, Repr

/-- The innermost class around a construct. -/
inductive ClassContext
  | none | root | derived
deriving DecidableEq, Repr

/-- The forms of a use of a name. -/
inductive UseForm
  | read | assign | this | super
deriving DecidableEq, Repr

/-- A use of a name that was found in an open scope. -/
structure Resolution where
  form : UseForm
  name : Token
  hops : Nat
deriving Repr

/-- The state of name resolution. -/
structure Scoping where
  scopes : List StaticScope := []
  globals : List String := []
  globalConstants : List String := []
  /-- Globals whose initial values are being resolved. -/
  initializing : List String := []
  function : FunctionContext := .none
  classContext : ClassContext := .none
  inLoop : Bool := false
  /-- Uses found in scopes, in order. -/
  resolutions : Array Resolution := #[]
  notices : Array Notice := #[]
deriving Repr

/-- Resolution stops early only where nesting goes beyond the limit. -/
abbrev Resolve (α : Type) := EStateM Unit Scoping α

namespace Scoping

/-- Looks a name up in scopes, innermost first: the hops to the first scope that has it. -/
def hops? (name : String) : List StaticScope → Option Nat
  | [] => none
  | s :: outer => if s.names.contains name then some 0 else (hops? name outer).map (· + 1)

/-- Whether the nearest declaration of a name is a constant. -/
def isConstantIn (name : String) (globalConstants : List String) : List StaticScope → Bool
  | [] => name ∈ globalConstants
  | s :: outer =>
      if s.names.contains name then name ∈ s.constants
      else isConstantIn name globalConstants outer

/-- Whether a name denotes a constant here. -/
def isConstant (s : Scoping) (name : String) : Bool :=
  isConstantIn name s.globalConstants s.scopes

/-- Adds a static error. -/
def report (s : Scoping) (token : Token) (error : StaticError) : Scoping :=
  { s with notices := s.notices.push (.error ⟨.ofToken token, error⟩) }

/-- Begins the declaration of a name; it is complete only after `define`. -/
def declare (s : Scoping) (token : Token) (name : String) : Scoping :=
  match s.scopes with
  | [] => if name ∈ s.globalConstants then s.report token .constantRedeclared else s
  | inner :: outer =>
      let reported :=
        if inner.names.contains name then s.report token .variableRedeclared else s
      { reported with scopes := { inner with names := inner.names.insert name false } :: outer }

/-- Completes the declaration of a name. -/
def define (s : Scoping) (name : String) : Scoping :=
  match s.scopes with
  | [] => { s with globals := s.globals.insert name }
  | inner :: outer =>
      { s with scopes := { inner with names := inner.names.insert name true } :: outer }

/-- Makes a declared name a constant or a variable. -/
def setMutability (s : Scoping) (name : String) (mutability : Mutability) : Scoping :=
  let change (constants : List String) : List String :=
    match mutability with
    | .constant => constants.insert name
    | .variable => constants.filter (· ≠ name)
  match s.scopes with
  | [] => { s with globalConstants := change s.globalConstants }
  | inner :: outer =>
      { s with scopes := { inner with constants := change inner.constants } :: outer }

/-- Opens a scope that has the given names from the start. -/
def enter (s : Scoping) (names : List String) : Scoping :=
  let bound := names.foldl (fun (b : Bindings Bool) name => b.insert name true) {}
  { s with scopes := { names := bound } :: s.scopes }

/-- Closes the innermost scope. -/
def leave (s : Scoping) : Scoping := { s with scopes := s.scopes.tail }

end Scoping

namespace Resolve
variable {α : Type}

/-- Adds a static error at a token. -/
def report (token : Token) (error : StaticError) : Resolve Unit :=
  modify fun s => s.report token error

/-- Resolves something in a new scope. -/
def inScope (names : List String) (body : Resolve α) : Resolve α := do
  modify fun s => s.enter names
  let a ← body
  modify Scoping.leave
  return a

/-- Resolves something in a function, where no loop is open. -/
def inFunction (context : FunctionContext) (body : Resolve α) : Resolve α := do
  let before ← get
  modify fun s => { s with function := context, inLoop := false }
  let a ← body
  modify fun s => { s with function := before.function, inLoop := before.inLoop }
  return a

/-- Resolves something in a loop. -/
def inLoop (body : Resolve α) : Resolve α := do
  let before ← get
  modify fun s => { s with inLoop := true }
  let a ← body
  modify fun s => { s with inLoop := before.inLoop }
  return a

/-- Resolves something in a class. -/
def inClass (context : ClassContext) (body : Resolve α) : Resolve α := do
  let before ← get
  modify fun s => { s with classContext := context }
  let a ← body
  modify fun s => { s with classContext := before.classContext }
  return a

/-- Resolves the initial value of a global, during which the global counts as being initialized;
locals keep that in their scope. -/
def initializing (name : String) (body : Resolve α) : Resolve α := do
  if (← get).scopes.isEmpty then
    modify fun s => { s with initializing := s.initializing.insert name }
  let a ← body
  modify fun s => { s with initializing := s.initializing.filter (· ≠ name) }
  return a

/-- Records a use that was found. -/
def record (form : UseForm) (use : NameUse) (hops : Nat) : Resolve NameUse := do
  modify fun s => { s with resolutions := s.resolutions.push ⟨form, use.name, hops⟩ }
  return { use with hops := some hops }

/-- Looks a use up in the open scopes; if none has the name, the global is meant. -/
def lookUp (form : UseForm) (use : NameUse) : Resolve NameUse := do
  match Scoping.hops? use.name.lexeme (← get).scopes with
  | some hops => record form use hops
  | none => return use

/-- Resolves a read in the initial value of the local it names: an outer variable of that name is
meant, and there must be one. -/
def readOuter (use : NameUse) (outer : List StaticScope) : Resolve NameUse := do
  let name := use.name.lexeme
  match Scoping.hops? name outer with
  | some hops => record .read use (hops + 1)
  | none =>
      if name ∈ (← get).globals then
        modify fun s => { s with notices := s.notices.push (.log (.globalRead name)) }
      else report use.name .ownInitializer
      return use

/-- Resolves a read. -/
def read (use : NameUse) : Resolve NameUse := do
  let name := use.name.lexeme
  let s ← get
  match s.scopes with
  | inner :: outer =>
      if inner.names.find? name = some false then readOuter use outer
      else lookUp .read use
  | [] =>
      if name ∈ s.initializing ∧ name ∉ s.globals then
        report use.name .ownInitializer
        return use
      else return use

end Resolve
end Treewalk
