import Treewalk.World
import Treewalk.Value.Operators

/-!
# Steps of evaluation

Evaluation changes the world and may be interrupted: by a control signal on its way to the loop or
call that takes it, by a runtime error, by nesting beyond the limit, or by a crash. Nothing here
recurses over the tree; what does takes the steps of this file apart.
-/
namespace Treewalk

/-- Signals of `return`, `break` and `continue`. -/
inductive Signal
  | return (value : Value)
  | break
  | continue
deriving Repr

/-- Why evaluation does not go on. -/
inductive Interrupt
  | signal (s : Signal)
  | error (e : RuntimeError)
  /-- Nesting beyond the limit, on its way to the innermost call. -/
  | overflow
  | crash (c : Crash)
  /-- A loop with more rounds than were granted. -/
  | exhausted
deriving Repr

/-- Evaluation. What was done before an interrupt stays done. -/
abbrev Eval (α : Type) := EStateM Interrupt World α

/-- Where code runs: the interpreter that owns it and the scope it sees. -/
structure Site where
  home : Ref .interpreter
  scope : Ref .scope
deriving DecidableEq, Repr

namespace Eval
variable {α : Type}

/-- Raises a runtime error. -/
def fail (token : Token) (cause : RuntimeCause) : Eval α := throw (.error ⟨token, cause⟩)

/-- Crashes. -/
def crash (c : Crash) : Eval α := throw (.crash c)

/-- The result of an operator at its token. -/
def ofOperator (token : Token) : Except OperatorFailure Value → Eval Value
  | .ok v => return v
  | .error (.error cause) => fail token cause
  | .error (.crash c) => crash c

/-! ### Taking interrupts -/

/-- Runs the body of a loop; the answer says whether the loop goes on. -/
def round (body : Eval Unit) : Eval Bool := fun w =>
  match body w with
  | .ok _ w => .ok true w
  | .error (.signal .break) w => .ok false w
  | .error (.signal .continue) w => .ok true w
  | .error i w => .error i w

/-- Rounds of a loop, as many as are granted. -/
def loop (condition : Eval Bool) (body increment : Eval Unit) : Nat → Eval Unit
  | 0 => throw .exhausted
  | patience + 1 => do
      if ← condition then
        if ← round body then
          increment
          loop condition body increment patience

/-- Runs the body of a function; the value is nil unless a `return` gives another one. -/
def returned (body : Eval Unit) : Eval Value := fun w =>
  match body w with
  | .ok _ w => .ok .nil w
  | .error (.signal (.return v)) w => .ok v w
  | .error i w => .error i w

/-- Turns nesting beyond the limit into a runtime error at the call in which it arose. -/
def atCall (paren : Token) (call : Eval α) : Eval α := fun w =>
  match call w with
  | .error .overflow w => .error (.error ⟨paren, .stackOverflow⟩) w
  | r => r

/-! ### Scopes -/

/-- Makes an empty scope. -/
def newScope (parent : Ref .scope) : Eval (Ref .scope) :=
  modifyGet fun w => (w.scopes.next, { w with scopes := w.scopes.addChild (some parent) })

/-- Binds a name in a scope. -/
def define (scope : Ref .scope) (name : String) (v : Value) : Eval Unit :=
  modify fun w => { w with scopes := w.scopes.define scope name v }

/-- The scope so many hops outward. -/
def ancestor (scope : Ref .scope) (hops : Nat) : Eval (Ref .scope) := do
  match (← get).scopes.ancestor? hops scope with
  | some r => return r
  | none => crash (.shortChain hops)

/-- The value of a name so many hops outward. -/
def loadAt (scope : Ref .scope) (hops : Nat) (name : String) : Eval Value := do
  let r ← ancestor scope hops
  match (← get).scopes.find? r name with
  | some v => return v
  | none => crash (.missingLocal name)

/-- The value of a use of a name. -/
def read (site : Site) (use : NameUse) : Eval Value := do
  let name := use.name.lexeme
  match use.hops with
  | some hops => loadAt site.scope hops name
  | none =>
      let w ← get
      match w.scopes.load? (w.globals site.home) name with
      | some v => return v
      | none => fail use.name (.undefinedVariable name)

/-- Changes what a use of a name stands for. A local is bound even if it was not yet. -/
def assign (site : Site) (use : NameUse) (v : Value) : Eval Unit := do
  let name := use.name.lexeme
  match use.hops with
  | some hops =>
      let r ← ancestor site.scope hops
      define r name v
  | none =>
      let w ← get
      match w.scopes.store? (w.globals site.home) name v with
      | some scopes => set { w with scopes := scopes }
      | none => fail use.name (.undefinedVariable name)

/-! ### Objects -/

/-- Makes a function of a declaration. -/
def newFunction (f : Closure) : Eval Value :=
  modifyGet fun w => (.function w.functions.next, { w with functions := w.functions.add f })

/-- Makes a class. -/
def newClass (c : ClassObject) : Eval Value :=
  modifyGet fun w => (.class w.classes.next, { w with classes := w.classes.add c })

/-- Makes an instance without fields. -/
def newInstance (c : Ref .class) : Eval (Ref .instance) :=
  modifyGet fun w =>
    (w.instances.next, { w with instances := w.instances.add { classRef := c } })

/-- A method with its receiver bound, in a scope between the method's own and its calls. -/
def bound (f : Closure) (receiver : Ref .instance) : Eval Closure := do
  let scope ← newScope f.scope
  define scope "this" (.instance receiver)
  return { f with scope := scope }

/-- Reads a property: a field, or else a method. -/
def property (object : Value) (name : Token) : Eval Value := do
  let w ← get
  match object with
  | .instance r =>
      let i := w.instances.get r
      match i.fields.find? name.lexeme with
      | some v => return v
      | none =>
          match w.method? i.classRef name.lexeme with
          | some f => newFunction (← bound f r)
          | none => fail name (.undefinedProperty name.lexeme)
  | .module r =>
      let m := w.modules.get r
      match w.scopes.find? (w.globals m.home) name.lexeme with
      | some v => return v
      | none => fail name (.noMember m.name name.lexeme)
  | _ => fail name .noProperties

/-- Whether a value has properties that can be set. -/
def checkFields (object : Value) (name : Token) : Eval Unit :=
  match object with
  | .instance _ | .module _ => return
  | _ => fail name .noFields

/-- Sets a property: any field of an instance, an existing member of a module. -/
def setProperty (object : Value) (name : Token) (v : Value) : Eval Unit := do
  let w ← get
  match object with
  | .instance r =>
      let i := w.instances.get r
      set
        { w with instances := w.instances.set r { i with fields := i.fields.insert name.lexeme v } }
  | .module r =>
      let m := w.modules.get r
      let members := w.globals m.home
      if w.scopes.contains members name.lexeme then define members name.lexeme v
      else fail name (.noMember m.name name.lexeme)
  | _ => fail name .noFields

/-- The method of the superclass, bound to the receiver, which stands one scope inside. -/
def superMethod (site : Site) (use : NameUse) (method : Token) : Eval Value := do
  match use.hops with
  | none => crash (.missingLocal "super")
  | some hops =>
      let superclass ← loadAt site.scope hops "super"
      let receiver ← loadAt site.scope (hops - 1) "this"
      match superclass, receiver with
      | .class c, .instance i =>
          match (← get).method? c method.lexeme with
          | some f => newFunction (← bound f i)
          | none => fail method (.undefinedProperty method.lexeme)
      | _, _ => crash (.missingLocal "super")

/-- The class that a superclass clause names. -/
def superclass (site : Site) (use : NameUse) : Eval (Ref .class) := do
  match ← read site use with
  | .class r => return r
  | _ => fail use.name .superclassNotClass

/-- Declares a class whose superclass is known. With a superclass, the methods see a scope that
binds it. -/
def declareClass (site : Site) (name : Token) (parent : Option (Ref .class))
    (methods : List FunctionDecl) : Eval Unit := do
  define site.scope name.lexeme .nil
  let scope ←
    match parent with
    | some c => do
        let scope ← newScope site.scope
        define scope "super" (.class c)
        pure scope
    | none => pure site.scope
  let add (ms : Bindings Closure) (d : FunctionDecl) : Bindings Closure :=
    let isInitializer := d.displayName == "init"
    ms.insert d.displayName ⟨d, scope, site.home, isInitializer⟩
  let c ← newClass ⟨name.lexeme, parent, methods.foldl add {}⟩
  define site.scope name.lexeme c

/-! ### Calls -/

/-- Whether a value can be called with so many arguments. -/
def checkCall (callee : Value) (paren : Token) (found : Nat) : Eval Unit := do
  match (← get).arity? callee with
  | none => fail paren .notCallable
  | some expected => if found ≠ expected then fail paren (.argumentCount expected found)

/-- Calls a function whose statements are run by `run`. An initializer returns its receiver. -/
def callFunction (run : Site → Stmt → Eval Unit) (f : Closure) (arguments : List Value) :
    Eval Value := do
  let scope ← newScope f.scope
  (f.declaration.parameters.zip arguments).forM fun (p, v) => define scope p.lexeme v
  let v ← returned (f.declaration.body.forM (run ⟨f.home, scope⟩))
  if f.isInitializer then loadAt f.scope 0 "this" else return v

/-- Calls a value that can be called. A class makes an instance and initializes it. -/
def callValue (run : Site → Stmt → Eval Unit) (callee : Value) (arguments : List Value) :
    Eval Value := do
  let w ← get
  match callee with
  | .function r => callFunction run (w.functions.get r) arguments
  | .class r => do
      let i ← newInstance r
      if let some f := w.method? r "init" then
        let _ ← callFunction run (← bound f i) arguments
      return .instance i
  | .clock _ => return .number w.now
  | _ => return .nil

/-! ### Units and modules -/

/-- How the execution of a unit ended. -/
inductive Completion
  | rejected
  | completed
  | failed (e : RuntimeError)
deriving Repr

/-- Runs the statements of a unit in the globals; a runtime error is reported. -/
def runStatements (run : Site → Stmt → Eval Unit) (home : Ref .interpreter)
    (statements : List Stmt) : Eval Completion := fun w =>
  match statements.forM (run ⟨home, w.globals home⟩) w with
  | .ok _ w => .ok .completed w
  | .error (.error e) w => .ok (.failed e) (w.reportRuntime home e)
  | .error i w => .error i w

/-- Executes a unit unless it has static errors. -/
def execute (run : Site → Stmt → Eval Unit) (home : Ref .interpreter) (u : CompiledUnit) :
    Eval Completion := do
  if u.ok then
    modify fun w => w.updateInterpreter home fun i =>
      { i with constants := u.constants, file := some u.file }
    runStatements run home u.statements
  else
    modify fun w => w.log (.notExecuted u.file u.errorCount)
    return .rejected

/-- The text of a module's file. -/
def readModule (token : Token) (name : String) : FileEntry → Eval String
  | .file bytes =>
      match Text.decode? bytes with
      | some s => return s
      | none => crash .undecodableFile
  | .unreadable reason => fail token (.moduleUnreadable name reason)
  | .directory => fail token (.moduleNotFound name)

/-- Runs a module for the first time. It is registered before it runs, so that an import cycle finds
it, and forgotten again if it does not run to its end. -/
def loadModule (levels : Nat) (run : Site → Stmt → Eval Unit) (loader : Ref .loader)
    (token : Token) (name : String) (place : RealPath) (source : String) :
    Eval (Ref .module) := do
  let w ← get
  let home := w.interpreters.next
  let m := w.modules.next
  let w := (w.log (.moduleLoading name place.text)).addInterpreter name loader
  let w := { w with modules := w.modules.add ⟨name, place.text, home⟩ }
  let w := w.updateLoader loader fun l => l.register place m
  let (u, w) := w.compile levels home place.text source
  set w
  match ← execute run home u with
  | .completed => return m
  | .rejected =>
      modify fun w => w.updateLoader loader fun l => l.forget place
      fail token (.moduleRejected name)
  | .failed _ =>
      modify fun w => w.updateLoader loader fun l => l.forget place
      fail token (.moduleFailed name)

/-- The module that an import names, from the cache or from its file. -/
def importModule (levels : Nat) (run : Site → Stmt → Eval Unit) (home : Ref .interpreter)
    (token : Token) : Eval (Ref .module) := do
  let w ← get
  let name := importedModule token
  let loader := (w.interpreters.get home).loader
  match w.findModule home name with
  | .nothing => fail token (.moduleNotFound name)
  | .nameTooLong => crash .fileNameTooLong
  | .entry place e =>
      match (w.loaders.get loader).cached? place with
      | some m =>
          modify fun w => w.log (.moduleCached name place.text)
          return m
      | none =>
          let source ← readModule token name e
          loadModule levels run loader token name place source

end Eval
end Treewalk
