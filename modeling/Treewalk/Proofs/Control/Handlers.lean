import Treewalk.Session
import Treewalk.Proofs.Watching

/-!
# Handlers of signals

Evaluation with the executions of loops and the activations of functions that are going on around it,
innermost first. It notes when one of them is entered, when a signal is raised and what takes it, and
how calls, imports and units are left.
-/
namespace Treewalk

/-- What code runs in: an execution of a loop, an activation of a function, or a run of a unit. Each
has a number of its own. -/
inductive Handler
  | loop (id : Nat) (st : Stmt)
  | activation (id : Nat) (f : FunctionDecl)
  | unit (id : Nat) (u : CompiledUnit)

/-- What a signal must not leave. -/
inductive Boundary
  | call (f : FunctionDecl)
  | construct (c : Ref .class)
  | importing (name : Token)
  | unit (home : Ref .interpreter)

inductive ControlEvent
  | entered (h : Handler)
  /-- The statement raised the signal in these handlers. -/
  | raised (s : Signal) (st : Stmt) (handlers : List Handler)
  | caught (s : Signal) (h : Handler)
  /-- With the interrupt, if it was one. -/
  | left (b : Boundary) (i : Option Interrupt)

/-- Evaluation with notes of control flow. -/
abbrev Handling (α : Type) := EStateM Interrupt (Watched World ControlEvent) α

namespace Handling
open Watched
variable {α : Type}

/-- Enters a handler, whose number is the number of notes so far. -/
def enter (make : Nat → Handler) : Handling Handler := do
  let s ← get
  note (.entered (make s.notes.length))
  return make s.notes.length

def raise (handlers : List Handler) (st : Stmt) (s : Signal) : Handling α := do
  note (.raised s st handlers)
  throw (.signal s)

/-- Notes how a boundary is left. -/
def leaving (b : Boundary) (p : Handling α) : Handling α := fun s =>
  match p s with
  | .ok a s => .ok a { s with notes := .left b none :: s.notes }
  | .error i s => .error i { s with notes := .left b (some i) :: s.notes }

/-! ### Taking interrupts -/

def round (h : Handler) (body : Handling Unit) : Handling Bool := fun s =>
  match body s with
  | .ok _ s => .ok true s
  | .error (.signal .break) s => .ok false { s with notes := .caught .break h :: s.notes }
  | .error (.signal .continue) s => .ok true { s with notes := .caught .continue h :: s.notes }
  | .error i s => .error i s

def loop (h : Handler) (condition : Handling Bool) (body increment : Handling Unit) :
    Nat → Handling Unit
  | 0 => throw .exhausted
  | patience + 1 => do
      if ← condition then
        if ← round h body then
          increment
          loop h condition body increment patience

def returned (h : Handler) (body : Handling Unit) : Handling Value := fun s =>
  match body s with
  | .ok _ s => .ok .nil s
  | .error (.signal (.return v)) s => .ok v { s with notes := .caught (.return v) h :: s.notes }
  | .error i s => .error i s

def atCall (paren : Token) (call : Handling α) : Handling α := fun s =>
  match call s with
  | .error .overflow s => .error (.error ⟨paren, .stackOverflow⟩) s
  | r => r

/-- The end of a unit: a runtime error is reported. -/
def finishing (home : Ref .interpreter) (p : Handling Unit) : Handling Eval.Completion := fun s =>
  match p s with
  | .ok _ s => .ok .completed s
  | .error (.error e) s => .ok (.failed e) { s with state := s.state.reportRuntime home e }
  | .error i s => .error i s

/-! ### Calls -/

section Running
variable (handlers : List Handler) (run : List Handler → Site → Stmt → Handling Unit)

def callFunction (f : Closure) (arguments : List Value) : Handling Value :=
  leaving (.call f.declaration) do
    let scope ← quietly (Eval.newScope f.scope)
    (f.declaration.parameters.zip arguments).forM fun (p, v) =>
      quietly (Eval.define scope p.lexeme v)
    let h ← enter (.activation · f.declaration)
    let v ← returned h (f.declaration.body.forM (run (h :: handlers) ⟨f.home, scope⟩))
    if f.isInitializer then quietly (Eval.loadAt f.scope 0 "this") else return v

def construct (c : Ref .class) (init : Option Closure) (arguments : List Value) :
    Handling Value :=
  leaving (.construct c) do
    let i ← quietly (Eval.newInstance c)
    match init with
    | some f => do
        let f ← quietly (Eval.bound f i)
        let _ ← callFunction handlers run f arguments
        return .instance i
    | none => return .instance i

def callValue (callee : Value) (arguments : List Value) : Handling Value := do
  let w ← look
  match callee with
  | .function r => callFunction handlers run (w.functions.get r) arguments
  | .class r => construct handlers run r (w.method? r "init") arguments
  | .clock _ => return .number w.now
  | _ => return .nil

/-! ### Units and modules -/

def runStatements (home : Ref .interpreter) (u : CompiledUnit) : Handling Eval.Completion :=
  leaving (.unit home) do
    let h ← enter (.unit · u)
    let w ← look
    finishing home (u.statements.forM (run (h :: handlers) ⟨home, w.globals home⟩))

def execute (home : Ref .interpreter) (u : CompiledUnit) : Handling Eval.Completion := do
  if u.ok then
    quietly (modify fun w => w.updateInterpreter home fun i =>
      { i with constants := u.constants, file := some u.file })
    runStatements handlers run home u
  else
    quietly (modify fun w => w.log (.notExecuted u.file u.errorCount))
    return .rejected

def loadModule (levels : Nat) (loader : Ref .loader) (token : Token) (name : String)
    (place : RealPath) (source : String) : Handling (Ref .module) := do
  let w ← look
  let home := w.interpreters.next
  let m := w.modules.next
  let w := (w.log (.moduleLoading name place.text)).addInterpreter name loader
  let w := { w with modules := w.modules.add ⟨name, place.text, home⟩ }
  let w := w.updateLoader loader fun l => l.register place m
  quietly (set (w.compile levels home place.text source).2)
  match ← execute handlers run home (w.compile levels home place.text source).1 with
  | .completed => return m
  | .rejected => do
      quietly (modify fun w => w.updateLoader loader fun l => l.forget place)
      quietly (Eval.fail token (.moduleRejected name))
  | .failed _ => do
      quietly (modify fun w => w.updateLoader loader fun l => l.forget place)
      quietly (Eval.fail token (.moduleFailed name))

def importModule (levels : Nat) (home : Ref .interpreter) (token : Token) :
    Handling (Ref .module) :=
  leaving (.importing token) do
    let w ← look
    let name := importedModule token
    let loader := (w.interpreters.get home).loader
    match w.findModule home name with
    | .nothing => quietly (Eval.fail token (.moduleNotFound name))
    | .nameTooLong => quietly (Eval.crash .fileNameTooLong)
    | .entry place e =>
        match (w.loaders.get loader).cached? place with
        | some m => do
            quietly (modify fun w => w.log (.moduleCached name place.text))
            return m
        | none => do
            let source ← quietly (Eval.readModule token name e)
            loadModule handlers run levels loader token name place source

end Running

/-! ### Trees -/

mutual

def expression (patience : Nat) : Nat → List Handler → Site → Expr → Handling Value
  | 0, _, _, _ => throw .overflow
  | levels + 1, handlers, site, e =>
      match e with
      | .literal l => return l.value
      | .grouping inner => expression patience levels handlers site inner
      | .name use => quietly (Eval.read site use)
      | .this use => quietly (Eval.read site use)
      | .assign use value => do
          let v ← expression patience levels handlers site value
          quietly (Eval.assign site use v)
          return v
      | .unary op token operand => do
          let v ← expression patience levels handlers site operand
          quietly (Eval.ofOperator token (op.apply v))
      | .binary left op token right => do
          let v ← expression patience levels handlers site left
          let v' ← expression patience levels handlers site right
          quietly (Eval.ofOperator token (op.apply v v'))
      | .logical left op _ right => do
          let v ← expression patience levels handlers site left
          if op.decides v then return v else expression patience levels handlers site right
      | .call callee paren arguments => do
          let f ← expression patience levels handlers site callee
          let vs ← arguments.mapM (expression patience levels handlers site)
          quietly (Eval.checkCall f paren vs.length)
          atCall paren (call patience levels handlers f vs)
      | .get object name => do
          let o ← expression patience levels handlers site object
          quietly (Eval.property o name)
      | .set object name value => do
          let o ← expression patience levels handlers site object
          quietly (Eval.checkFields o name)
          let v ← expression patience levels handlers site value
          quietly (Eval.setProperty o name v)
          return v
      | .super use method => quietly (Eval.superMethod site use method)
      | .lambda function => quietly (Eval.newFunction ⟨function, site.scope, site.home, false⟩)

def call (patience : Nat) : Nat → List Handler → Value → List Value → Handling Value
  | 0, _, _, _ => throw .overflow
  | levels + 1, handlers, callee, arguments =>
      callValue handlers (statement patience levels) callee arguments

def statement (patience : Nat) : Nat → List Handler → Site → Stmt → Handling Unit
  | 0, _, _, _ => throw .overflow
  | levels + 1, handlers, site, s =>
      match s with
      | .expression e => do
          let _ ← expression patience levels handlers site e
      | .print e => do
          let v ← expression patience levels handlers site e
          quietly (modify fun w => { w with console := w.console.print (w.display v) })
      | .var _ name initial => do
          let v ←
            match initial with
            | some e => expression patience levels handlers site e
            | none => pure .nil
          quietly (Eval.define site.scope name.lexeme v)
      | .block body => do
          let scope ← quietly (Eval.newScope site.scope)
          body.forM (statement patience levels handlers { site with scope := scope })
      | .if condition thenBranch elseBranch => do
          let v ← expression patience levels handlers site condition
          if v.truthy then statement patience levels handlers site thenBranch
          else
            match elseBranch with
            | some s => statement patience levels handlers site s
            | none => return
      | .while condition body increment => do
          let h ← enter (.loop · (.while condition body increment))
          let test := Value.truthy <$> expression patience levels handlers site condition
          let advance :=
            match increment with
            | some e => discard (expression patience levels handlers site e)
            | none => pure ()
          loop h test (statement patience levels (h :: handlers) site body) advance patience
      | .break keyword => raise handlers (.break keyword) .break
      | .continue keyword => raise handlers (.continue keyword) .continue
      | .return keyword value => do
          let v ←
            match value with
            | some e => expression patience levels handlers site e
            | none => pure .nil
          raise handlers (.return keyword value) (.return v)
      | .function f => quietly do
          let v ← Eval.newFunction ⟨f, site.scope, site.home, false⟩
          Eval.define site.scope f.displayName v
      | .class name parent methods => quietly do
          let parent ← parent.mapM (Eval.superclass site)
          Eval.declareClass site name parent methods
      | .importModule _ name as => do
          let m ← importModule handlers (statement patience levels) (2 * levels) site.home name
          quietly (Eval.define site.scope (importBinding name as) (.module m))

end

/-! ### Nothing else changes -/

theorem enter_erases {make : Nat → Handler} {f : Handler → Handling α} {q : Eval α}
    (h : ∀ k, Erases (f k) q) : Erases (enter make >>= f) q :=
  fun s => h _ { s with notes := .entered (make s.notes.length) :: s.notes }

theorem raise_erases (handlers : List Handler) (st : Stmt) (s : Signal) :
    Erases (raise handlers st s : Handling α) (throw (.signal s)) := fun _ => rfl

theorem leaving_erases {b : Boundary} {p : Handling α} {q : Eval α} (h : Erases p q) :
    Erases (leaving b p) q := by
  intro s
  rw [← h s]
  unfold leaving
  cases p s <;> rfl

theorem round_erases {h : Handler} {p : Handling Unit} {q : Eval Unit} (hp : Erases p q) :
    Erases (round h p) (Eval.round q) := by
  intro s
  have hs := hp s
  unfold round Eval.round
  rw [← hs]
  cases p s with
  | ok a t => rfl
  | error i t =>
      cases i with
      | signal c => cases c <;> rfl
      | _ => rfl

theorem loop_erases {h : Handler} {condition : Handling Bool} {condition' : Eval Bool}
    {body increment : Handling Unit} {body' increment' : Eval Unit}
    (hc : Erases condition condition') (hb : Erases body body')
    (hi : Erases increment increment') (patience : Nat) :
    Erases (loop h condition body increment patience)
      (Eval.loop condition' body' increment' patience) := by
  induction patience with
  | zero => exact .throw _
  | succ patience ih =>
      refine .bind hc fun go => ?_
      cases go with
      | false => exact .pure ()
      | true =>
          refine .bind (round_erases hb) fun go => ?_
          cases go with
          | false => exact .pure ()
          | true => exact .bind hi fun _ => ih

theorem returned_erases {h : Handler} {p : Handling Unit} {q : Eval Unit} (hp : Erases p q) :
    Erases (returned h p) (Eval.returned q) := by
  intro s
  have hs := hp s
  unfold returned Eval.returned
  rw [← hs]
  cases p s with
  | ok a t => rfl
  | error i t =>
      cases i with
      | signal c => cases c <;> rfl
      | _ => rfl

theorem atCall_erases {paren : Token} {p : Handling α} {q : Eval α} (h : Erases p q) :
    Erases (atCall paren p) (Eval.atCall paren q) := by
  intro s
  have hs := h s
  unfold atCall Eval.atCall
  rw [← hs]
  cases p s with
  | ok a t => rfl
  | error i t => cases i <;> rfl

section Running
variable {handlers : List Handler} {run : List Handler → Site → Stmt → Handling Unit}
  {run' : Site → Stmt → Eval Unit}

theorem callFunction_erases (h : ∀ hs site st, Erases (run hs site st) (run' site st))
    (f : Closure) (arguments : List Value) :
    Erases (callFunction handlers run f arguments) (Eval.callFunction run' f arguments) := by
  refine leaving_erases (.bind (.quietly _) fun scope => .bind (.forM (fun _ => .quietly _) _)
    fun _ => enter_erases fun k => .bind (returned_erases (.forM (fun st => h _ _ st) _)) fun v => ?_)
  split
  · exact .quietly _
  · exact .pure _

theorem callValue_erases (h : ∀ hs site st, Erases (run hs site st) (run' site st))
    (callee : Value) (arguments : List Value) :
    Erases (callValue handlers run callee arguments) (Eval.callValue run' callee arguments) := by
  refine .bind .look fun w => ?_
  cases callee with
  | function r => exact callFunction_erases h _ arguments
  | «class» r =>
      refine leaving_erases (.bind (.quietly _) fun i => ?_)
      cases hm : w.method? r "init" with
      | some f =>
          exact .bind (.quietly _) fun _ => .bind (callFunction_erases h _ arguments) fun _ =>
            .pure _
      | none => exact .pure _
  | _ => exact .pure _

theorem runStatements_erases (h : ∀ hs site st, Erases (run hs site st) (run' site st))
    (home : Ref .interpreter) (u : CompiledUnit) :
    Erases (runStatements handlers run home u) (Eval.runStatements run' home u.statements) := by
  refine leaving_erases fun s => ?_
  have hs := Erases.forM (fun st => h (.unit s.notes.length u :: handlers)
    ⟨home, s.state.globals home⟩ st) u.statements
    ⟨s.state, .entered (.unit s.notes.length u) :: s.notes⟩
  change forget (finishing home (u.statements.forM (run (.unit s.notes.length u :: handlers)
    ⟨home, s.state.globals home⟩)) ⟨s.state, .entered (.unit s.notes.length u) :: s.notes⟩) = _
  unfold finishing Eval.runStatements
  rw [← hs]
  cases u.statements.forM (run (.unit s.notes.length u :: handlers)
    ⟨home, s.state.globals home⟩) ⟨s.state, .entered (.unit s.notes.length u) :: s.notes⟩ with
  | ok a t => rfl
  | error i t => cases i <;> rfl

theorem execute_erases (h : ∀ hs site st, Erases (run hs site st) (run' site st))
    (home : Ref .interpreter) (u : CompiledUnit) :
    Erases (execute handlers run home u) (Eval.execute run' home u) := by
  unfold execute Eval.execute
  split
  · exact .bind (.quietly _) fun _ => runStatements_erases h home u
  · exact .bind (.quietly _) fun _ => .pure _

theorem loadModule_erases (h : ∀ hs site st, Erases (run hs site st) (run' site st)) {levels : Nat}
    {loader : Ref .loader} {token : Token} {name : String} {place : RealPath} {source : String} :
    Erases (loadModule handlers run levels loader token name place source)
      (Eval.loadModule levels run' loader token name place source) := by
  refine .bind .look fun w => .bind (.quietly _) fun _ => .bind (execute_erases h _ _)
    fun completion => ?_
  cases completion with
  | completed => exact .pure _
  | rejected => exact .bind (.quietly _) fun _ => .quietly _
  | failed e => exact .bind (.quietly _) fun _ => .quietly _

theorem importModule_erases (h : ∀ hs site st, Erases (run hs site st) (run' site st))
    {levels : Nat} {home : Ref .interpreter} {token : Token} :
    Erases (importModule handlers run levels home token)
      (Eval.importModule levels run' home token) := by
  refine leaving_erases (.bind .look fun w => ?_)
  cases hfile : w.findModule home (importedModule token) with
  | nothing =>
      simp only [hfile]
      exact .quietly _
  | nameTooLong =>
      simp only [hfile]
      exact .quietly _
  | entry place e =>
      cases hm : (w.loaders.get (w.interpreters.get home).loader).cached? place with
      | some m =>
          simp only [hfile, hm]
          exact .bind (.quietly _) fun _ => .pure _
      | none =>
          simp only [hfile, hm]
          exact .bind (.quietly _) fun _ => loadModule_erases h

end Running

/-- Evaluation with handlers is evaluation. -/
structure LevelErases (patience levels : Nat) : Prop where
  expression : ∀ handlers site e, Erases (expression patience levels handlers site e)
    (Eval.expression patience levels site e)
  call : ∀ handlers callee arguments, Erases (call patience levels handlers callee arguments)
    (Eval.call patience levels callee arguments)
  statement : ∀ handlers site st, Erases (statement patience levels handlers site st)
    (Eval.statement patience levels site st)

namespace LevelErases
variable {patience levels : Nat}

theorem expression_succ (ih : LevelErases patience levels) (hs : List Handler) (site : Site)
    (e : Expr) : Erases (Handling.expression patience (levels + 1) hs site e)
      (Eval.expression patience (levels + 1) site e) := by
  unfold Handling.expression Eval.expression
  cases e with
  | literal l => exact .pure _
  | grouping inner => exact ih.expression hs site inner
  | name use => exact .quietly _
  | this use => exact .quietly _
  | assign use value =>
      exact .bind (ih.expression hs site value) fun _ => .bind (.quietly _) fun _ => .pure _
  | unary op token operand => exact .bind (ih.expression hs site operand) fun _ => .quietly _
  | binary left op token right =>
      exact .bind (ih.expression hs site left) fun _ => .bind (ih.expression hs site right) fun _ =>
        .quietly _
  | logical left op token right =>
      refine .bind (ih.expression hs site left) fun v => ?_
      by_cases h : op.decides v
      · simp only [h, if_true]
        exact .pure _
      · simp only [h]
        exact ih.expression hs site right
  | call callee paren arguments =>
      exact .bind (ih.expression hs site callee) fun f =>
        .bind (.mapM (ih.expression hs site) arguments) fun vs =>
          .bind (.quietly _) fun _ => atCall_erases (ih.call hs f vs)
  | get object name => exact .bind (ih.expression hs site object) fun _ => .quietly _
  | set object name value =>
      exact .bind (ih.expression hs site object) fun _ => .bind (.quietly _) fun _ =>
        .bind (ih.expression hs site value) fun _ => .bind (.quietly _) fun _ => .pure _
  | super use method => exact .quietly _
  | lambda function => exact .quietly _

theorem statement_succ (ih : LevelErases patience levels) (hs : List Handler) (site : Site)
    (st : Stmt) : Erases (Handling.statement patience (levels + 1) hs site st)
      (Eval.statement patience (levels + 1) site st) := by
  unfold Handling.statement Eval.statement
  cases st with
  | expression e => exact .bind (ih.expression hs site e) fun _ => .pure _
  | print e => exact .bind (ih.expression hs site e) fun _ => .quietly _
  | var mutability name initial =>
      cases initial with
      | none => exact .bind (.pure _) fun _ => .quietly _
      | some e => exact .bind (ih.expression hs site e) fun _ => .quietly _
  | block body => exact .bind (.quietly _) fun _ => .forM (fun st => ih.statement hs _ st) body
  | «if» condition thenBranch elseBranch =>
      refine .bind (ih.expression hs site condition) fun v => ?_
      by_cases h : v.truthy
      · simp only [h, if_true]
        exact ih.statement hs site thenBranch
      · simp only [h]
        cases elseBranch with
        | none => exact .pure _
        | some s => exact ih.statement hs site s
  | «while» condition body increment =>
      refine enter_erases fun k => ?_
      refine loop_erases (.map (ih.expression hs site condition) _) (ih.statement _ site body) ?_
        patience
      cases increment with
      | none => exact .pure _
      | some e => exact .map (ih.expression hs site e) _
  | «break» keyword => exact raise_erases hs _ _
  | «continue» keyword => exact raise_erases hs _ _
  | «return» keyword value =>
      cases value with
      | none => exact .bind (.pure _) fun _ => raise_erases hs _ _
      | some e => exact .bind (ih.expression hs site e) fun _ => raise_erases hs _ _
  | function f => exact .quietly _
  | «class» name parent methods => exact .quietly _
  | importModule keyword name as =>
      exact .bind (importModule_erases ih.statement) fun _ => .quietly _

end LevelErases

theorem erases (patience levels : Nat) : LevelErases patience levels := by
  induction levels with
  | zero =>
      exact
        { expression := fun _ _ _ => .throw _
          call := fun _ _ _ => .throw _
          statement := fun _ _ _ => .throw _ }
  | succ levels ih =>
      exact
        { expression := ih.expression_succ
          call := fun _ => callValue_erases ih.statement
          statement := ih.statement_succ }

end Handling
end Treewalk
