import Treewalk.Session
import Treewalk.Proofs.Scopes.Units

/-!
# Watched runs

Evaluation, watched: of every node it notes where and when its evaluation begins, of every scope for
which construct it was made, of every assignment to a variable or property when its value is about to
be stored, of every variable declaration when it has been executed, and of every statement of a unit
when it begins.
-/
namespace Treewalk

/-- What is noted of a node. -/
inductive Moment
  | reached
  | storing (v : Value)
  | setting (o v : Value)
  | declared

inductive Event
  | opened (r : Ref .scope) (c : Construct)
  | began (home : Ref .interpreter) (text : UnitText) (st : Stmt)
  /-- The world is the one at that moment. -/
  | node (m : Moment) (site : Site) (n : Node) (w : World)

/-- A source text as it is handed over for an interpreter of a world. -/
def World.text (w : World) (levels : Nat) (home : Ref .interpreter) (file source : String) :
    UnitText where
  levels := levels
  file := file
  source := source
  globals := (w.scopes.get (w.interpreters.get home).globals).values.names
  constants := (w.interpreters.get home).constants

/-- Evaluation with notes. -/
abbrev Watching (α : Type) := EStateM Interrupt (Watched World Event) α

namespace Watching
open Watched
variable {α : Type}

def mark (m : Moment) (site : Site) (n : Node) : Watching Unit := do
  let w ← look
  note (.node m site n w)

/-! ### Taking interrupts -/

def round (body : Watching Unit) : Watching Bool := fun s =>
  match body s with
  | .ok _ s => .ok true s
  | .error (.signal .break) s => .ok false s
  | .error (.signal .continue) s => .ok true s
  | .error i s => .error i s

def loop (condition : Watching Bool) (body increment : Watching Unit) : Nat → Watching Unit
  | 0 => throw .exhausted
  | patience + 1 => do
      if ← condition then
        if ← round body then
          increment
          loop condition body increment patience

def returned (body : Watching Unit) : Watching Value := fun s =>
  match body s with
  | .ok _ s => .ok .nil s
  | .error (.signal (.return v)) s => .ok v s
  | .error i s => .error i s

def atCall (paren : Token) (call : Watching α) : Watching α := fun s =>
  match call s with
  | .error .overflow s => .error (.error ⟨paren, .stackOverflow⟩) s
  | r => r

/-! ### Scopes and objects -/

/-- Makes the scope of a construct. -/
def newScope (c : Construct) (parent : Ref .scope) : Watching (Ref .scope) := do
  let r ← quietly (Eval.newScope parent)
  note (.opened r c)
  return r

def bound (f : Closure) (receiver : Ref .instance) : Watching Closure := do
  let scope ← newScope (.this f.declaration) f.scope
  quietly (Eval.define scope "this" (.instance receiver))
  return { f with scope := scope }

def property (object : Value) (name : Token) : Watching Value := do
  let w ← look
  match object with
  | .instance r =>
      let i := w.instances.get r
      match i.fields.find? name.lexeme with
      | some v => return v
      | none =>
          match w.method? i.classRef name.lexeme with
          | some f => do
              let f ← bound f r
              quietly (Eval.newFunction f)
          | none => quietly (Eval.fail name (.undefinedProperty name.lexeme))
  | .module r =>
      let m := w.modules.get r
      match w.scopes.find? (w.globals m.home) name.lexeme with
      | some v => return v
      | none => quietly (Eval.fail name (.noMember m.name name.lexeme))
  | _ => quietly (Eval.fail name .noProperties)

def superMethod (site : Site) (use : NameUse) (method : Token) : Watching Value := do
  match use.hops with
  | none => quietly (Eval.crash (.missingLocal "super"))
  | some hops =>
      let superclass ← quietly (Eval.loadAt site.scope hops "super")
      let receiver ← quietly (Eval.loadAt site.scope (hops - 1) "this")
      match superclass, receiver with
      | .class c, .instance i =>
          match (← look).method? c method.lexeme with
          | some f => do
              let f ← bound f i
              quietly (Eval.newFunction f)
          | none => quietly (Eval.fail method (.undefinedProperty method.lexeme))
      | _, _ => quietly (Eval.crash (.missingLocal "super"))

/-- The superclass of a class is read like a variable. -/
def superclass (site : Site) (use : NameUse) : Watching (Ref .class) := do
  mark .reached site (.expr (.name use))
  quietly (Eval.superclass site use)

def declareClass (site : Site) (name : Token) (parent : Option (Ref .class))
    (methods : List FunctionDecl) : Watching Unit := do
  quietly (Eval.define site.scope name.lexeme .nil)
  let scope ←
    match parent with
    | some c => do
        let scope ← newScope (.super methods) site.scope
        quietly (Eval.define scope "super" (.class c))
        pure scope
    | none => pure site.scope
  let add (ms : Bindings Closure) (d : FunctionDecl) : Bindings Closure :=
    let isInitializer := d.displayName == "init"
    ms.insert d.displayName ⟨d, scope, site.home, isInitializer⟩
  let c ← quietly (Eval.newClass ⟨name.lexeme, parent, methods.foldl add {}⟩)
  quietly (Eval.define site.scope name.lexeme c)

/-! ### Calls -/

def callFunction (run : Site → Stmt → Watching Unit) (f : Closure) (arguments : List Value) :
    Watching Value := do
  let scope ← newScope (.function f.declaration) f.scope
  (f.declaration.parameters.zip arguments).forM fun (p, v) =>
    quietly (Eval.define scope p.lexeme v)
  let v ← returned (f.declaration.body.forM (run ⟨f.home, scope⟩))
  if f.isInitializer then quietly (Eval.loadAt f.scope 0 "this") else return v

def callValue (run : Site → Stmt → Watching Unit) (callee : Value) (arguments : List Value) :
    Watching Value := do
  let w ← look
  match callee with
  | .function r => callFunction run (w.functions.get r) arguments
  | .class r => do
      let i ← quietly (Eval.newInstance r)
      match w.method? r "init" with
      | some f => do
          let f ← bound f i
          let _ ← callFunction run f arguments
          return .instance i
      | none => return .instance i
  | .clock _ => return .number w.now
  | _ => return .nil

/-! ### Units and modules -/

/-- Runs a statement of a unit, which is noted. -/
def begin (run : Site → Stmt → Watching Unit) (site : Site) (text : UnitText) (st : Stmt) :
    Watching Unit := do
  note (.began site.home text st)
  run site st

def runStatements (run : Site → Stmt → Watching Unit) (home : Ref .interpreter)
    (text : UnitText) : Watching Eval.Completion := fun s =>
  match text.unit.statements.forM (begin run ⟨home, s.state.globals home⟩ text) s with
  | .ok _ s => .ok .completed s
  | .error (.error e) s => .ok (.failed e) { s with state := s.state.reportRuntime home e }
  | .error i s => .error i s

def execute (run : Site → Stmt → Watching Unit) (home : Ref .interpreter) (text : UnitText) :
    Watching Eval.Completion := do
  if text.unit.ok then
    quietly (modify fun w => w.updateInterpreter home fun i =>
      { i with constants := text.unit.constants, file := some text.unit.file })
    runStatements run home text
  else
    quietly (modify fun w => w.log (.notExecuted text.unit.file text.unit.errorCount))
    return .rejected

def loadModule (levels : Nat) (run : Site → Stmt → Watching Unit) (loader : Ref .loader)
    (token : Token) (name : String) (place : RealPath) (source : String) :
    Watching (Ref .module) := do
  let w ← look
  let home := w.interpreters.next
  let m := w.modules.next
  let w := (w.log (.moduleLoading name place.text)).addInterpreter name loader
  let w := { w with modules := w.modules.add ⟨name, place.text, home⟩ }
  let w := w.updateLoader loader fun l => l.register place m
  quietly (set (w.compile levels home place.text source).2)
  match ← execute run home (w.text levels home place.text source) with
  | .completed => return m
  | .rejected => do
      quietly (modify fun w => w.updateLoader loader fun l => l.forget place)
      quietly (Eval.fail token (.moduleRejected name))
  | .failed _ => do
      quietly (modify fun w => w.updateLoader loader fun l => l.forget place)
      quietly (Eval.fail token (.moduleFailed name))

def importModule (levels : Nat) (run : Site → Stmt → Watching Unit) (home : Ref .interpreter)
    (token : Token) : Watching (Ref .module) := do
  let w ← look
  let name := importedModule token
  let loader := (w.interpreters.get home).loader
  match w.findModule home name with
  | .nothing => quietly (Eval.fail token (.moduleNotFound name))
  | .nameTooLong => quietly (Eval.crash .fileNameTooLong)
  | .entry place e =>
      match (w.loaders.get loader).cached? place with
      | some m => do
          quietly (modify fun w => w.log (.moduleCached name place.text))
          return m
      | none => do
          let source ← quietly (Eval.readModule token name e)
          loadModule levels run loader token name place source

/-! ### Trees -/

mutual

def expression (patience : Nat) : Nat → Site → Expr → Watching Value
  | 0, _, _ => throw .overflow
  | levels + 1, site, e => do
      mark .reached site (.expr e)
      match e with
      | .literal l => return l.value
      | .grouping inner => expression patience levels site inner
      | .name use => quietly (Eval.read site use)
      | .this use => quietly (Eval.read site use)
      | .assign use value => do
          let v ← expression patience levels site value
          mark (.storing v) site (.expr (.assign use value))
          quietly (Eval.assign site use v)
          return v
      | .unary op token operand => do
          let v ← expression patience levels site operand
          quietly (Eval.ofOperator token (op.apply v))
      | .binary left op token right => do
          let v ← expression patience levels site left
          let v' ← expression patience levels site right
          quietly (Eval.ofOperator token (op.apply v v'))
      | .logical left op _ right => do
          let v ← expression patience levels site left
          if op.decides v then return v else expression patience levels site right
      | .call callee paren arguments => do
          let f ← expression patience levels site callee
          let vs ← arguments.mapM (expression patience levels site)
          quietly (Eval.checkCall f paren vs.length)
          atCall paren (call patience levels f vs)
      | .get object name => do
          let o ← expression patience levels site object
          property o name
      | .set object name value => do
          let o ← expression patience levels site object
          quietly (Eval.checkFields o name)
          let v ← expression patience levels site value
          mark (.setting o v) site (.expr (.set object name value))
          quietly (Eval.setProperty o name v)
          return v
      | .super use method => superMethod site use method
      | .lambda function => quietly (Eval.newFunction ⟨function, site.scope, site.home, false⟩)

def call (patience : Nat) : Nat → Value → List Value → Watching Value
  | 0, _, _ => throw .overflow
  | levels + 1, callee, arguments => callValue (statement patience levels) callee arguments

def statement (patience : Nat) : Nat → Site → Stmt → Watching Unit
  | 0, _, _ => throw .overflow
  | levels + 1, site, s => do
      mark .reached site (.stmt s)
      match s with
      | .expression e => do
          let _ ← expression patience levels site e
      | .print e => do
          let v ← expression patience levels site e
          quietly (modify fun w => { w with console := w.console.print (w.display v) })
      | .var mutability name initial => do
          let v ←
            match initial with
            | some e => expression patience levels site e
            | none => pure .nil
          quietly (Eval.define site.scope name.lexeme v)
          mark .declared site (.stmt (.var mutability name initial))
      | .block body => do
          let scope ← newScope (.block body) site.scope
          body.forM (statement patience levels { site with scope := scope })
      | .if condition thenBranch elseBranch => do
          let v ← expression patience levels site condition
          if v.truthy then statement patience levels site thenBranch
          else
            match elseBranch with
            | some s => statement patience levels site s
            | none => return
      | .while condition body increment =>
          let test := Value.truthy <$> expression patience levels site condition
          let advance :=
            match increment with
            | some e => discard (expression patience levels site e)
            | none => pure ()
          loop test (statement patience levels site body) advance patience
      | .break _ => throw (.signal .break)
      | .continue _ => throw (.signal .continue)
      | .return _ value => do
          let v ←
            match value with
            | some e => expression patience levels site e
            | none => pure .nil
          throw (.signal (.return v))
      | .function f => quietly do
          let v ← Eval.newFunction ⟨f, site.scope, site.home, false⟩
          Eval.define site.scope f.displayName v
      | .class name parent methods => do
          let parent ← parent.mapM (superclass site)
          declareClass site name parent methods
      | .importModule _ name as => do
          let m ← importModule (2 * levels) (statement patience levels) site.home name
          quietly (Eval.define site.scope (importBinding name as) (.module m))

end

end Watching
end Treewalk
