import Treewalk.Proofs.Run.Events

/-!
# Watching changes nothing

A watched run, without its notes, is the run. The two are compared step by step, with the same
nesting levels and the same patience.
-/
namespace Treewalk
namespace Watching
open Watched
variable {α : Type}

theorem mark_erases {m : Moment} {site : Site} {n : Node} {p : Watching α} {q : Eval α}
    (h : Erases p q) : Erases (mark m site n >>= fun _ => p) q :=
  fun s => h { s with notes := .node m site n s.state :: s.notes }

/-! ### Taking interrupts -/

theorem round_erases {p : Watching Unit} {q : Eval Unit} (h : Erases p q) :
    Erases (round p) (Eval.round q) := by
  intro s
  have hs := h s
  unfold round Eval.round
  rw [← hs]
  cases p s with
  | ok a t => rfl
  | error i t =>
      cases i with
      | signal c => cases c <;> rfl
      | _ => rfl

theorem loop_erases {condition : Watching Bool} {condition' : Eval Bool}
    {body increment : Watching Unit} {body' increment' : Eval Unit}
    (hc : Erases condition condition') (hb : Erases body body')
    (hi : Erases increment increment') (patience : Nat) :
    Erases (loop condition body increment patience)
      (Eval.loop condition' body' increment' patience) := by
  induction patience with
  | zero => exact .throw _
  | succ patience ih =>
      refine .bind hc fun go => ?_
      cases go with
      | false => exact .pure ()
      | true =>
          refine .bind (round_erases hb) fun go => ?_
          cases go with
          | false => exact .pure ()
          | true => exact .bind hi fun _ => ih

theorem returned_erases {p : Watching Unit} {q : Eval Unit} (h : Erases p q) :
    Erases (returned p) (Eval.returned q) := by
  intro s
  have hs := h s
  unfold returned Eval.returned
  rw [← hs]
  cases p s with
  | ok a t => rfl
  | error i t =>
      cases i with
      | signal c => cases c <;> rfl
      | _ => rfl

theorem atCall_erases {paren : Token} {p : Watching α} {q : Eval α} (h : Erases p q) :
    Erases (atCall paren p) (Eval.atCall paren q) := by
  intro s
  have hs := h s
  unfold atCall Eval.atCall
  rw [← hs]
  cases p s with
  | ok a t => rfl
  | error i t => cases i <;> rfl

/-! ### Scopes and objects -/

theorem newScope_erases {c : Construct} {parent : Ref .scope} :
    Erases (newScope c parent) (Eval.newScope parent) := by
  have h := Erases.bind (Erases.quietly (Eval.newScope parent)) fun r =>
    Erases.noting (Event.opened r c) (Erases.pure r)
  rw [bind_pure] at h
  exact h

theorem bound_erases {f : Closure} {receiver : Ref .instance} :
    Erases (bound f receiver) (Eval.bound f receiver) :=
  .bind newScope_erases fun _ => .bind (.quietly _) fun _ => .pure _

theorem property_erases {object : Value} {name : Token} :
    Erases (property object name) (Eval.property object name) := by
  refine .bind .look fun w => ?_
  cases object with
  | «instance» r =>
      cases hfield : (w.instances.get r).fields.find? name.lexeme with
      | some v =>
          simp only [hfield]
          exact .pure _
      | none =>
          cases hm : w.method? (w.instances.get r).classRef name.lexeme with
          | some f =>
              simp only [hfield, hm]
              exact .bind bound_erases fun _ => .quietly _
          | none =>
              simp only [hfield, hm]
              exact .quietly _
  | module r =>
      cases hv : w.scopes.find? (w.globals (w.modules.get r).home) name.lexeme with
      | some v =>
          simp only [hv]
          exact .pure _
      | none =>
          simp only [hv]
          exact .quietly _
  | _ => exact .quietly _

theorem superMethod_erases {site : Site} {use : NameUse} {method : Token} :
    Erases (superMethod site use method) (Eval.superMethod site use method) := by
  unfold superMethod Eval.superMethod
  cases use.hops with
  | none => exact .quietly _
  | some hops =>
      refine .bind (.quietly _) fun superclass => .bind (.quietly _) fun receiver => ?_
      cases superclass with
      | «class» c =>
          cases receiver with
          | «instance» i =>
              refine .bind .look fun w => ?_
              cases hm : w.method? c method.lexeme with
              | some f => exact .bind bound_erases fun _ => .quietly _
              | none => exact .quietly _
          | _ => exact .quietly _
      | _ => exact .quietly _

theorem superclass_erases {site : Site} {use : NameUse} :
    Erases (superclass site use) (Eval.superclass site use) :=
  mark_erases (.quietly _)

theorem declareClass_erases {site : Site} {name : Token} {parent : Option (Ref .class)}
    {methods : List FunctionDecl} :
    Erases (declareClass site name parent methods)
      (Eval.declareClass site name parent methods) := by
  refine .bind (.quietly _) fun _ => ?_
  cases parent with
  | none => exact .bind (.pure _) fun _ => .bind (.quietly _) fun _ => .quietly _
  | some c =>
      exact .bind newScope_erases fun _ => .bind (.quietly _) fun _ => .bind (.pure _) fun _ =>
        .bind (.quietly _) fun _ => .quietly _

/-! ### Calls -/

section Running
variable {run : Site → Stmt → Watching Unit} {run' : Site → Stmt → Eval Unit}

theorem callFunction_erases (h : ∀ site st, Erases (run site st) (run' site st)) (f : Closure)
    (arguments : List Value) :
    Erases (callFunction run f arguments) (Eval.callFunction run' f arguments) := by
  refine .bind newScope_erases fun scope => .bind (.forM (fun _ => .quietly _) _) fun _ =>
    .bind (returned_erases (.forM (fun st => h _ st) _)) fun v => ?_
  split
  · exact .quietly _
  · exact .pure _

theorem callValue_erases (h : ∀ site st, Erases (run site st) (run' site st)) (callee : Value)
    (arguments : List Value) :
    Erases (callValue run callee arguments) (Eval.callValue run' callee arguments) := by
  refine .bind .look fun w => ?_
  cases callee with
  | function r => exact callFunction_erases h _ arguments
  | «class» r =>
      refine .bind (.quietly _) fun i => ?_
      cases hm : w.method? r "init" with
      | some f =>
          exact .bind bound_erases fun _ => .bind (callFunction_erases h _ arguments) fun _ =>
            .pure _
      | none => exact .pure _
  | _ => exact .pure _

/-! ### Units and modules -/

theorem runStatements_erases (h : ∀ site st, Erases (run site st) (run' site st))
    (home : Ref .interpreter) (text : UnitText) :
    Erases (runStatements run home text) (Eval.runStatements run' home text.unit.statements) := by
  intro s
  have hbegin : ∀ st, Erases (begin run ⟨home, s.state.globals home⟩ text st)
      (run' ⟨home, s.state.globals home⟩ st) := fun st => .noting _ (h _ st)
  have hs := Erases.forM hbegin text.unit.statements s
  unfold runStatements Eval.runStatements
  rw [← hs]
  cases text.unit.statements.forM (begin run ⟨home, s.state.globals home⟩ text) s with
  | ok a t => rfl
  | error i t => cases i <;> rfl

theorem execute_erases (h : ∀ site st, Erases (run site st) (run' site st))
    (home : Ref .interpreter) (text : UnitText) :
    Erases (execute run home text) (Eval.execute run' home text.unit) := by
  unfold execute Eval.execute
  split
  · exact .bind (.quietly _) fun _ => runStatements_erases h home text
  · exact .bind (.quietly _) fun _ => .pure _

theorem loadModule_erases (h : ∀ site st, Erases (run site st) (run' site st)) {levels : Nat}
    {loader : Ref .loader} {token : Token} {name : String} {place : RealPath} {source : String} :
    Erases (loadModule levels run loader token name place source)
      (Eval.loadModule levels run' loader token name place source) := by
  refine .bind .look fun w => .bind (.quietly _) fun _ => .bind (execute_erases h _ _)
    fun completion => ?_
  cases completion with
  | completed => exact .pure _
  | rejected => exact .bind (.quietly _) fun _ => .quietly _
  | failed e => exact .bind (.quietly _) fun _ => .quietly _

theorem importModule_erases (h : ∀ site st, Erases (run site st) (run' site st)) {levels : Nat}
    {home : Ref .interpreter} {token : Token} :
    Erases (importModule levels run home token) (Eval.importModule levels run' home token) := by
  refine .bind .look fun w => ?_
  cases hfile : w.findModule home (importedModule token) with
  | nothing =>
      simp only [hfile]
      exact .quietly _
  | nameTooLong =>
      simp only [hfile]
      exact .quietly _
  | entry place e =>
      cases hm : (w.loaders.get (w.interpreters.get home).loader).cached? place with
      | some m =>
          simp only [hfile, hm]
          exact .bind (.quietly _) fun _ => .pure _
      | none =>
          simp only [hfile, hm]
          exact .bind (.quietly _) fun _ => loadModule_erases h

end Running

/-! ### Trees -/

/-- Watched evaluation at a nesting level is evaluation. -/
structure LevelErases (patience levels : Nat) : Prop where
  expression : ∀ site e,
    Erases (expression patience levels site e) (Eval.expression patience levels site e)
  call : ∀ callee arguments,
    Erases (call patience levels callee arguments) (Eval.call patience levels callee arguments)
  statement : ∀ site st,
    Erases (statement patience levels site st) (Eval.statement patience levels site st)

namespace LevelErases
variable {patience levels : Nat}

theorem expression_succ (ih : LevelErases patience levels) (site : Site) (e : Expr) :
    Erases (Watching.expression patience (levels + 1) site e)
      (Eval.expression patience (levels + 1) site e) := by
  unfold Watching.expression Eval.expression
  refine mark_erases ?_
  cases e with
  | literal l => exact .pure _
  | grouping inner => exact ih.expression site inner
  | name use => exact .quietly _
  | this use => exact .quietly _
  | assign use value =>
      exact .bind (ih.expression site value) fun _ => mark_erases (.bind (.quietly _) fun _ =>
        .pure _)
  | unary op token operand => exact .bind (ih.expression site operand) fun _ => .quietly _
  | binary left op token right =>
      exact .bind (ih.expression site left) fun _ => .bind (ih.expression site right) fun _ =>
        .quietly _
  | logical left op token right =>
      refine .bind (ih.expression site left) fun v => ?_
      by_cases h : op.decides v
      · simp only [h, if_true]
        exact .pure _
      · simp only [h]
        exact ih.expression site right
  | call callee paren arguments =>
      exact .bind (ih.expression site callee) fun f =>
        .bind (.mapM (ih.expression site) arguments) fun vs =>
          .bind (.quietly _) fun _ => atCall_erases (ih.call f vs)
  | get object name => exact .bind (ih.expression site object) fun _ => property_erases
  | set object name value =>
      exact .bind (ih.expression site object) fun _ => .bind (.quietly _) fun _ =>
        .bind (ih.expression site value) fun _ => mark_erases (.bind (.quietly _) fun _ => .pure _)
  | super use method => exact superMethod_erases
  | lambda function => exact .quietly _

theorem call_succ (ih : LevelErases patience levels) (callee : Value) (arguments : List Value) :
    Erases (Watching.call patience (levels + 1) callee arguments)
      (Eval.call patience (levels + 1) callee arguments) :=
  callValue_erases ih.statement callee arguments

theorem statement_succ (ih : LevelErases patience levels) (site : Site) (st : Stmt) :
    Erases (Watching.statement patience (levels + 1) site st)
      (Eval.statement patience (levels + 1) site st) := by
  unfold Watching.statement Eval.statement
  refine mark_erases ?_
  cases st with
  | expression e => exact .bind (ih.expression site e) fun _ => .pure _
  | print e => exact .bind (ih.expression site e) fun _ => .quietly _
  | var mutability name initial =>
      have hlast : ∀ v, Erases (quietly (Eval.define site.scope name.lexeme v) >>= fun _ =>
          mark .declared site (.stmt (.var mutability name initial)))
          (Eval.define site.scope name.lexeme v) := fun v s => rfl
      cases initial with
      | none => exact hlast .nil
      | some e => exact .bind (ih.expression site e) hlast
  | block body => exact .bind newScope_erases fun _ => .forM (fun st => ih.statement _ st) body
  | «if» condition thenBranch elseBranch =>
      refine .bind (ih.expression site condition) fun v => ?_
      by_cases h : v.truthy
      · simp only [h, if_true]
        exact ih.statement site thenBranch
      · simp only [h]
        cases elseBranch with
        | none => exact .pure _
        | some s => exact ih.statement site s
  | «while» condition body increment =>
      refine loop_erases (.map (ih.expression site condition) _) (ih.statement site body) ?_ patience
      cases increment with
      | none => exact .pure _
      | some e => exact .map (ih.expression site e) _
  | «break» keyword => exact .throw _
  | «continue» keyword => exact .throw _
  | «return» keyword value =>
      cases value with
      | none => exact .throw _
      | some e => exact .bind (ih.expression site e) fun _ => .throw _
  | function f => exact .quietly _
  | «class» name parent methods =>
      cases parent with
      | none => exact .bind (.pure none) fun _ => declareClass_erases
      | some use =>
          exact .bind (.map superclass_erases some) fun _ => declareClass_erases
  | importModule keyword name as =>
      exact .bind (importModule_erases ih.statement) fun _ => .quietly _

end LevelErases

theorem erases (patience levels : Nat) : LevelErases patience levels := by
  induction levels with
  | zero =>
      exact
        { expression := fun _ _ => .throw _
          call := fun _ _ => .throw _
          statement := fun _ _ => .throw _ }
  | succ levels ih =>
      exact
        { expression := ih.expression_succ
          call := ih.call_succ
          statement := ih.statement_succ }

end Watching
end Treewalk
