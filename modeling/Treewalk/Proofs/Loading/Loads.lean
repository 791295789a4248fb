import Treewalk.Session
import Treewalk.Proofs.Watching

/-!
# Loads of modules

Evaluation with the loads of modules that are going on around it, innermost first. A load is one
evaluation of a file as a module. It is noted where nodes are reached, when a load starts and in
which world, which statements of the module have been executed, and how the load ends.
-/
namespace Treewalk

/-- An evaluation of a file as a module, through a loader. Every load makes a module of its own. -/
structure Load where
  loader : Ref .loader
  place : RealPath
  module : Ref .module
deriving DecidableEq

inductive LoadEnd
  | completed (u : CompiledUnit)
  | rejected
  | failed (e : RuntimeError)
  /-- An interrupt went through the load. -/
  | cut (i : Interrupt)

inductive LoadEvent
  /-- A unit is about to be run from outside. -/
  | run
  /-- A node is reached in these loads. -/
  | reached (loads : List Load) (w : World)
  /-- A file is about to be registered and evaluated. -/
  | started (loads : List Load) (l : Load) (w : World)
  | executed (l : Load) (st : Stmt)
  | ended (l : Load) (how : LoadEnd)

/-- Evaluation with notes of loads. -/
abbrev Loading (α : Type) := EStateM Interrupt (Watched World LoadEvent) α

namespace Loading
open Watched
variable {α : Type}

def reach (loads : List Load) : Loading Unit := do
  let w ← look
  note (.reached loads w)

/-! ### Taking interrupts -/

def round (body : Loading Unit) : Loading Bool := fun s =>
  match body s with
  | .ok _ s => .ok true s
  | .error (.signal .break) s => .ok false s
  | .error (.signal .continue) s => .ok true s
  | .error i s => .error i s

def loop (condition : Loading Bool) (body increment : Loading Unit) : Nat → Loading Unit
  | 0 => throw .exhausted
  | patience + 1 => do
      if ← condition then
        if ← round body then
          increment
          loop condition body increment patience

def returned (body : Loading Unit) : Loading Value := fun s =>
  match body s with
  | .ok _ s => .ok .nil s
  | .error (.signal (.return v)) s => .ok v s
  | .error i s => .error i s

def atCall (paren : Token) (call : Loading α) : Loading α := fun s =>
  match call s with
  | .error .overflow s => .error (.error ⟨paren, .stackOverflow⟩) s
  | r => r

/-- The end of a unit: a runtime error is reported. -/
def finishing (home : Ref .interpreter) (p : Loading Unit) : Loading Eval.Completion := fun s =>
  match p s with
  | .ok _ s => .ok .completed s
  | .error (.error e) s => .ok (.failed e) { s with state := s.state.reportRuntime home e }
  | .error i s => .error i s

/-- Notes the interrupt that goes through a load. -/
def cutting (l : Load) (p : Loading α) : Loading α := fun s =>
  match p s with
  | .ok a s => .ok a s
  | .error i s => .error i { s with notes := .ended l (.cut i) :: s.notes }

/-! ### Calls -/

section Calls
variable (run : Site → Stmt → Loading Unit)

def callFunction (f : Closure) (arguments : List Value) : Loading Value := do
  let scope ← quietly (Eval.newScope f.scope)
  (f.declaration.parameters.zip arguments).forM fun (p, v) =>
    quietly (Eval.define scope p.lexeme v)
  let v ← returned (f.declaration.body.forM (run ⟨f.home, scope⟩))
  if f.isInitializer then quietly (Eval.loadAt f.scope 0 "this") else return v

def construct (c : Ref .class) (init : Option Closure) (arguments : List Value) :
    Loading Value := do
  let i ← quietly (Eval.newInstance c)
  match init with
  | some f => do
      let f ← quietly (Eval.bound f i)
      let _ ← callFunction run f arguments
      return .instance i
  | none => return .instance i

def callValue (callee : Value) (arguments : List Value) : Loading Value := do
  let w ← look
  match callee with
  | .function r => callFunction run (w.functions.get r) arguments
  | .class r => construct run r (w.method? r "init") arguments
  | .clock _ => return .number w.now
  | _ => return .nil

/-- Executes a unit. -/
def execute (home : Ref .interpreter) (u : CompiledUnit) : Loading Eval.Completion := do
  if u.ok then
    quietly (modify fun w => w.updateInterpreter home fun i =>
      { i with constants := u.constants, file := some u.file })
    let w ← look
    finishing home (u.statements.forM (run ⟨home, w.globals home⟩))
  else
    quietly (modify fun w => w.log (.notExecuted u.file u.errorCount))
    return .rejected

end Calls

/-! ### Modules -/

section Modules
variable (run : List Load → Site → Stmt → Loading Unit) (loads : List Load)

/-- Executes a top-level statement of a module. -/
def executing (l : Load) (site : Site) (st : Stmt) : Loading Unit := do
  run (l :: loads) site st
  note (.executed l st)

/-- The end of a load in which the unit was executed. -/
def conclude (token : Token) (name : String) (l : Load) (u : CompiledUnit) :
    Eval.Completion → Loading (Ref .module)
  | .completed => do
      note (.ended l (.completed u))
      return l.module
  | .rejected => do
      quietly (modify fun w => w.updateLoader l.loader fun cache => cache.forget l.place)
      note (.ended l .rejected)
      quietly (Eval.fail token (.moduleRejected name))
  | .failed e => do
      quietly (modify fun w => w.updateLoader l.loader fun cache => cache.forget l.place)
      note (.ended l (.failed e))
      quietly (Eval.fail token (.moduleFailed name))

def loadModule (levels : Nat) (loader : Ref .loader) (token : Token) (name : String)
    (place : RealPath) (source : String) : Loading (Ref .module) := do
  let w ← look
  let home := w.interpreters.next
  let l : Load := ⟨loader, place, w.modules.next⟩
  note (.started loads l w)
  let w := (w.log (.moduleLoading name place.text)).addInterpreter name loader
  let w := { w with modules := w.modules.add ⟨name, place.text, home⟩ }
  let w := w.updateLoader loader fun cache => cache.register place l.module
  let r := w.compile levels home place.text source
  quietly (set r.2)
  let completion ← cutting l (execute (executing run loads l) home r.1)
  conclude token name l r.1 completion

def importModule (levels : Nat) (home : Ref .interpreter) (token : Token) :
    Loading (Ref .module) := do
  let w ← look
  let name := importedModule token
  let loader := (w.interpreters.get home).loader
  match w.findModule home name with
  | .nothing => quietly (Eval.fail token (.moduleNotFound name))
  | .nameTooLong => quietly (Eval.crash .fileNameTooLong)
  | .entry place e =>
      match (w.loaders.get loader).cached? place with
      | some m => do
          quietly (modify fun w => w.log (.moduleCached name place.text))
          return m
      | none => do
          let source ← quietly (Eval.readModule token name e)
          loadModule run loads levels loader token name place source

end Modules

/-! ### Trees -/

mutual

def expression (patience : Nat) : Nat → List Load → Site → Expr → Loading Value
  | 0, _, _, _ => throw .overflow
  | levels + 1, loads, site, e => do
      reach loads
      match e with
      | .literal l => return l.value
      | .grouping inner => expression patience levels loads site inner
      | .name use => quietly (Eval.read site use)
      | .this use => quietly (Eval.read site use)
      | .assign use value => do
          let v ← expression patience levels loads site value
          quietly (Eval.assign site use v)
          return v
      | .unary op token operand => do
          let v ← expression patience levels loads site operand
          quietly (Eval.ofOperator token (op.apply v))
      | .binary left op token right => do
          let v ← expression patience levels loads site left
          let v' ← expression patience levels loads site right
          quietly (Eval.ofOperator token (op.apply v v'))
      | .logical left op _ right => do
          let v ← expression patience levels loads site left
          if op.decides v then return v else expression patience levels loads site right
      | .call callee paren arguments => do
          let f ← expression patience levels loads site callee
          let vs ← arguments.mapM (expression patience levels loads site)
          quietly (Eval.checkCall f paren vs.length)
          atCall paren (call patience levels loads f vs)
      | .get object name => do
          let o ← expression patience levels loads site object
          quietly (Eval.property o name)
      | .set object name value => do
          let o ← expression patience levels loads site object
          quietly (Eval.checkFields o name)
          let v ← expression patience levels loads site value
          quietly (Eval.setProperty o name v)
          return v
      | .super use method => quietly (Eval.superMethod site use method)
      | .lambda function => quietly (Eval.newFunction ⟨function, site.scope, site.home, false⟩)

def call (patience : Nat) : Nat → List Load → Value → List Value → Loading Value
  | 0, _, _, _ => throw .overflow
  | levels + 1, loads, callee, arguments =>
      callValue (statement patience levels loads) callee arguments

def statement (patience : Nat) : Nat → List Load → Site → Stmt → Loading Unit
  | 0, _, _, _ => throw .overflow
  | levels + 1, loads, site, s => do
      reach loads
      match s with
      | .expression e => do
          let _ ← expression patience levels loads site e
      | .print e => do
          let v ← expression patience levels loads site e
          quietly (modify fun w => { w with console := w.console.print (w.display v) })
      | .var _ name initial => do
          let v ←
            match initial with
            | some e => expression patience levels loads site e
            | none => pure .nil
          quietly (Eval.define site.scope name.lexeme v)
      | .block body => do
          let scope ← quietly (Eval.newScope site.scope)
          body.forM (statement patience levels loads { site with scope := scope })
      | .if condition thenBranch elseBranch => do
          let v ← expression patience levels loads site condition
          if v.truthy then statement patience levels loads site thenBranch
          else
            match elseBranch with
            | some s => statement patience levels loads site s
            | none => return
      | .while condition body increment =>
          let test := Value.truthy <$> expression patience levels loads site condition
          let advance :=
            match increment with
            | some e => discard (expression patience levels loads site e)
            | none => pure ()
          loop test (statement patience levels loads site body) advance patience
      | .break _ => throw (.signal .break)
      | .continue _ => throw (.signal .continue)
      | .return _ value => do
          let v ←
            match value with
            | some e => expression patience levels loads site e
            | none => pure .nil
          throw (.signal (.return v))
      | .function f => quietly do
          let v ← Eval.newFunction ⟨f, site.scope, site.home, false⟩
          Eval.define site.scope f.displayName v
      | .class name parent methods => quietly do
          let parent ← parent.mapM (Eval.superclass site)
          Eval.declareClass site name parent methods
      | .importModule _ name as => do
          let m ← importModule (statement patience levels) loads (2 * levels) site.home name
          quietly (Eval.define site.scope (importBinding name as) (.module m))

end

/-! ### Nothing else changes -/

/-- A node is reached before a computation. -/
theorem reach_erases {loads : List Load} {p : Loading α} {q : Eval α} (h : Erases p q) :
    Erases (reach loads >>= fun _ => p) q :=
  fun s => h { s with notes := .reached loads s.state :: s.notes }

theorem round_erases {p : Loading Unit} {q : Eval Unit} (h : Erases p q) :
    Erases (round p) (Eval.round q) := by
  intro s
  have hs := h s
  unfold round Eval.round
  rw [← hs]
  cases p s with
  | ok a t => rfl
  | error i t =>
      cases i with
      | signal c => cases c <;> rfl
      | _ => rfl

theorem loop_erases {condition : Loading Bool} {condition' : Eval Bool}
    {body increment : Loading Unit} {body' increment' : Eval Unit}
    (hc : Erases condition condition') (hb : Erases body body')
    (hi : Erases increment increment') (patience : Nat) :
    Erases (loop condition body increment patience)
      (Eval.loop condition' body' increment' patience) := by
  induction patience with
  | zero => exact .throw _
  | succ patience ih =>
      refine .bind hc fun go => ?_
      cases go with
      | false => exact .pure ()
      | true =>
          refine .bind (round_erases hb) fun go => ?_
          cases go with
          | false => exact .pure ()
          | true => exact .bind hi fun _ => ih

theorem returned_erases {p : Loading Unit} {q : Eval Unit} (h : Erases p q) :
    Erases (returned p) (Eval.returned q) := by
  intro s
  have hs := h s
  unfold returned Eval.returned
  rw [← hs]
  cases p s with
  | ok a t => rfl
  | error i t =>
      cases i with
      | signal c => cases c <;> rfl
      | _ => rfl

theorem atCall_erases {paren : Token} {p : Loading α} {q : Eval α} (h : Erases p q) :
    Erases (atCall paren p) (Eval.atCall paren q) := by
  intro s
  have hs := h s
  unfold atCall Eval.atCall
  rw [← hs]
  cases p s with
  | ok a t => rfl
  | error i t => cases i <;> rfl

theorem cutting_erases {l : Load} {p : Loading α} {q : Eval α} (h : Erases p q) :
    Erases (cutting l p) q := by
  intro s
  rw [← h s]
  unfold cutting
  cases p s <;> rfl

section Running
variable {run : Site → Stmt → Loading Unit} {run' : Site → Stmt → Eval Unit}

theorem callFunction_erases (h : ∀ site st, Erases (run site st) (run' site st)) (f : Closure)
    (arguments : List Value) :
    Erases (callFunction run f arguments) (Eval.callFunction run' f arguments) := by
  refine .bind (.quietly _) fun scope => .bind (.forM (fun _ => .quietly _) _) fun _ =>
    .bind (returned_erases (.forM (h _) _)) fun v => ?_
  split
  · exact .quietly _
  · exact .pure _

theorem callValue_erases (h : ∀ site st, Erases (run site st) (run' site st)) (callee : Value)
    (arguments : List Value) :
    Erases (callValue run callee arguments) (Eval.callValue run' callee arguments) := by
  refine .bind .look fun w => ?_
  cases callee with
  | function r => exact callFunction_erases h _ arguments
  | «class» r =>
      refine .bind (.quietly _) fun i => ?_
      cases hm : w.method? r "init" with
      | some f =>
          exact .bind (.quietly _) fun _ => .bind (callFunction_erases h _ arguments) fun _ =>
            .pure _
      | none => exact .pure _
  | _ => exact .pure _

theorem execute_erases (h : ∀ site st, Erases (run site st) (run' site st))
    (home : Ref .interpreter) (u : CompiledUnit) :
    Erases (execute run home u) (Eval.execute run' home u) := by
  unfold execute Eval.execute
  split
  · refine .bind (.quietly _) fun _ s => ?_
    have hs := Erases.forM (h ⟨home, s.state.globals home⟩) u.statements s
    change forget (finishing home (u.statements.forM (run ⟨home, s.state.globals home⟩)) s) = _
    unfold finishing Eval.runStatements
    rw [← hs]
    cases u.statements.forM (run ⟨home, s.state.globals home⟩) s with
    | ok a t => rfl
    | error i t => cases i <;> rfl
  · exact .bind (.quietly _) fun _ => .pure _

end Running

section Running
variable {run : List Load → Site → Stmt → Loading Unit} {run' : Site → Stmt → Eval Unit}
  {loads : List Load}

theorem executing_erases (h : ∀ loads site st, Erases (run loads site st) (run' site st))
    (l : Load) (site : Site) (st : Stmt) : Erases (executing run loads l site st) (run' site st) := by
  intro s
  rw [← h (l :: loads) site st s]
  change forget (EStateM.bind (run (l :: loads) site st) (fun _ => note (.executed l st)) s) = _
  unfold EStateM.bind
  cases run (l :: loads) site st s <;> rfl

theorem loadModule_erases (h : ∀ loads site st, Erases (run loads site st) (run' site st))
    {levels : Nat} {loader : Ref .loader} {token : Token} {name : String} {place : RealPath}
    {source : String} :
    Erases (loadModule run loads levels loader token name place source)
      (Eval.loadModule levels run' loader token name place source) := by
  refine .bind .look fun w => .noting _ (.bind (.quietly _) fun _ =>
    .bind (cutting_erases (execute_erases (executing_erases h _) _ _)) fun completion => ?_)
  cases completion with
  | completed => exact .noting _ (.pure _)
  | rejected => exact .bind (.quietly _) fun _ => .noting _ (.quietly _)
  | failed e => exact .bind (.quietly _) fun _ => .noting _ (.quietly _)

theorem importModule_erases (h : ∀ loads site st, Erases (run loads site st) (run' site st))
    {levels : Nat} {home : Ref .interpreter} {token : Token} :
    Erases (importModule run loads levels home token)
      (Eval.importModule levels run' home token) := by
  refine .bind .look fun w => ?_
  cases hfile : w.findModule home (importedModule token) with
  | nothing =>
      simp only [hfile]
      exact .quietly _
  | nameTooLong =>
      simp only [hfile]
      exact .quietly _
  | entry place e =>
      cases hm : (w.loaders.get (w.interpreters.get home).loader).cached? place with
      | some m =>
          simp only [hfile, hm]
          exact .bind (.quietly _) fun _ => .pure _
      | none =>
          simp only [hfile, hm]
          exact .bind (.quietly _) fun _ => loadModule_erases h

end Running

/-- Evaluation with loads is evaluation. -/
structure LevelErases (patience levels : Nat) : Prop where
  expression : ∀ loads site e, Erases (expression patience levels loads site e)
    (Eval.expression patience levels site e)
  call : ∀ loads callee arguments, Erases (call patience levels loads callee arguments)
    (Eval.call patience levels callee arguments)
  statement : ∀ loads site st, Erases (statement patience levels loads site st)
    (Eval.statement patience levels site st)

namespace LevelErases
variable {patience levels : Nat}

theorem expression_succ (ih : LevelErases patience levels) (loads : List Load) (site : Site)
    (e : Expr) : Erases (Loading.expression patience (levels + 1) loads site e)
      (Eval.expression patience (levels + 1) site e) := by
  unfold Loading.expression Eval.expression
  refine reach_erases ?_
  cases e with
  | literal l => exact .pure _
  | grouping inner => exact ih.expression loads site inner
  | name use => exact .quietly _
  | this use => exact .quietly _
  | assign use value =>
      exact .bind (ih.expression loads site value) fun _ => .bind (.quietly _) fun _ => .pure _
  | unary op token operand => exact .bind (ih.expression loads site operand) fun _ => .quietly _
  | binary left op token right =>
      exact .bind (ih.expression loads site left) fun _ =>
        .bind (ih.expression loads site right) fun _ => .quietly _
  | logical left op token right =>
      refine .bind (ih.expression loads site left) fun v => ?_
      by_cases h : op.decides v
      · simp only [h, if_true]
        exact .pure _
      · simp only [h]
        exact ih.expression loads site right
  | call callee paren arguments =>
      exact .bind (ih.expression loads site callee) fun f =>
        .bind (.mapM (ih.expression loads site) arguments) fun vs =>
          .bind (.quietly _) fun _ => atCall_erases (ih.call loads f vs)
  | get object name => exact .bind (ih.expression loads site object) fun _ => .quietly _
  | set object name value =>
      exact .bind (ih.expression loads site object) fun _ => .bind (.quietly _) fun _ =>
        .bind (ih.expression loads site value) fun _ => .bind (.quietly _) fun _ => .pure _
  | super use method => exact .quietly _
  | lambda function => exact .quietly _

theorem statement_succ (ih : LevelErases patience levels) (loads : List Load) (site : Site)
    (st : Stmt) : Erases (Loading.statement patience (levels + 1) loads site st)
      (Eval.statement patience (levels + 1) site st) := by
  unfold Loading.statement Eval.statement
  refine reach_erases ?_
  cases st with
  | expression e => exact .bind (ih.expression loads site e) fun _ => .pure _
  | print e => exact .bind (ih.expression loads site e) fun _ => .quietly _
  | var mutability name initial =>
      cases initial with
      | none => exact .bind (.pure _) fun _ => .quietly _
      | some e => exact .bind (ih.expression loads site e) fun _ => .quietly _
  | block body =>
      exact .bind (.quietly _) fun _ => .forM (fun st => ih.statement loads _ st) body
  | «if» condition thenBranch elseBranch =>
      refine .bind (ih.expression loads site condition) fun v => ?_
      by_cases h : v.truthy
      · simp only [h, if_true]
        exact ih.statement loads site thenBranch
      · simp only [h]
        cases elseBranch with
        | none => exact .pure _
        | some s => exact ih.statement loads site s
  | «while» condition body increment =>
      refine loop_erases (.map (ih.expression loads site condition) _)
        (ih.statement loads site body) ?_ patience
      cases increment with
      | none => exact .pure _
      | some e => exact .map (ih.expression loads site e) _
  | «break» keyword => exact .throw _
  | «continue» keyword => exact .throw _
  | «return» keyword value =>
      cases value with
      | none => exact .bind (.pure _) fun _ => .throw _
      | some e => exact .bind (ih.expression loads site e) fun _ => .throw _
  | function f => exact .quietly _
  | «class» name parent methods => exact .quietly _
  | importModule keyword name as =>
      exact .bind (importModule_erases ih.statement) fun _ => .quietly _

end LevelErases

theorem erases (patience levels : Nat) : LevelErases patience levels := by
  induction levels with
  | zero =>
      exact
        { expression := fun _ _ _ => .throw _
          call := fun _ _ _ => .throw _
          statement := fun _ _ _ => .throw _ }
  | succ levels ih =>
      exact
        { expression := ih.expression_succ
          call := fun loads => callValue_erases (ih.statement loads)
          statement := ih.statement_succ }

end Loading
end Treewalk
