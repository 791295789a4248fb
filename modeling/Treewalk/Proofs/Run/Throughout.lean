import Treewalk.Proofs.Run.Yields
import Treewalk.Proofs.Run.Units

/-!
# Throughout a run

What every single step of a run keeps, wherever it starts and whatever it does, whole runs keep,
however they end.
-/
namespace Treewalk
namespace Watching
open Watched
variable {α β : Type} {Go : Watched World Event → Watched World Event → Prop}

/-- Wherever the computation starts and however it ends, it goes on along the relation. -/
def Leads (Go : Watched World Event → Watched World Event → Prop) (p : Watching α) : Prop :=
  ∀ s, Yields Go (fun _ _ => True) p s fun _ _ => True

/-- The statements of a unit run along a relation, if what is noted when they begin and what is
reported in the end do. -/
theorem runStatements_yields [Course Go] {run : Site → Stmt → Watching Unit}
    {home : Ref .interpreter} {text : UnitText} {s : Watched World Event}
    (hrun : ∀ site st, Leads Go (run site st))
    (hbegin : ∀ st t, Go s t → Go t ⟨t.state, .began home text st :: t.notes⟩)
    (hreport : ∀ e t, Go s t → Go t ⟨t.state.reportRuntime home e, t.notes⟩) (h : Go s s) :
    Yields Go (fun _ _ => True) (runStatements run home text) s fun _ _ => True := by
  have hbody : Yields Go (fun _ _ => True) (text.unit.statements.forM
      (begin run ⟨home, s.state.globals home⟩ text)) s fun _ _ => True := by
    refine .forM (fun st _ t ht => ?_) h
    have hnoted : Yields Go (fun (_ : Interrupt) _ => True) (Watched.note (.began home text st)) t
        fun _ _ => True := ⟨hbegin st t ht, trivial⟩
    exact hnoted.bind fun _ u _ _ => hrun _ st u
  unfold Yields at hbody ⊢
  unfold runStatements
  cases hr : text.unit.statements.forM (begin run ⟨home, s.state.globals home⟩ text) s with
  | ok a t =>
      rw [hr] at hbody
      exact hbody
  | error i t =>
      rw [hr] at hbody
      cases i with
      | error e => exact ⟨Course.trans hbody.1 (hreport e t hbody.1), trivial⟩
      | _ => exact hbody

/-- A relation along which every step of a run goes. What the load of a module does is up to the
relation, given that statements go along it. -/
class Throughout (Go : Watched World Event → Watched World Event → Prop) : Prop
    extends Course Go where
  refl (s : Watched World Event) : Go s s
  inside {s : Watched World Event} {w : World} : s.state.SameOutside w → Go s ⟨w, s.notes⟩
  printed (s : Watched World Event) (console : Console) :
    Go s ⟨{ s.state with console := console }, s.notes⟩
  opened (s : Watched World Event) (r : Ref .scope) (c : Construct) :
    Go s ⟨s.state, .opened r c :: s.notes⟩
  marked (s : Watched World Event) (m : Moment) (site : Site) (n : Node) :
    Go s ⟨s.state, .node m site n s.state :: s.notes⟩
  loaded {run : Site → Stmt → Watching Unit} : (∀ site st, Leads Go (run site st)) →
    ∀ (levels : Nat) (loader : Ref .loader) (token : Token) (name : String) (place : RealPath)
      (source : String), Leads Go (loadModule levels run loader token name place source)

namespace Leads

theorem looking {f : World → Watching α} (hf : ∀ w, Leads Go (f w)) : Leads Go (look >>= f) :=
  fun s => hf s.state s

theorem returned {body : Watching Unit} (h : Leads Go body) : Leads Go (returned body) :=
  fun s => returned_yields (h s) (fun _ => trivial) fun _ _ _ => trivial

theorem atCall {paren : Token} {p : Watching α} (h : Leads Go p) : Leads Go (atCall paren p) :=
  fun s => atCall_yields (h s) fun _ _ => trivial

variable [Throughout Go]

theorem pure (a : α) : Leads Go (Pure.pure a : Watching α) :=
  fun s => .pure (Throughout.refl s) trivial

theorem throw (i : Interrupt) : Leads Go (MonadExcept.throw i : Watching α) :=
  fun s => .throw (Throughout.refl s) trivial

theorem bind {p : Watching α} {f : α → Watching β} (hp : Leads Go p) (hf : ∀ a, Leads Go (f a)) :
    Leads Go (p >>= f) := fun s => (hp s).bind fun a t _ _ => hf a t

theorem map {p : Watching α} (hp : Leads Go p) (f : α → β) : Leads Go (f <$> p) :=
  hp.bind fun a => pure (f a)

theorem quietly {q : Eval α} (h : Eval.Inside q) : Leads Go (Watched.quietly q) := by
  intro s
  have hq := h s.state
  unfold Yields Watched.quietly
  cases hr : q s.state with
  | ok a w =>
      rw [hr] at hq
      exact ⟨Throughout.inside hq, trivial⟩
  | error i w =>
      rw [hr] at hq
      exact ⟨Throughout.inside hq, trivial⟩

theorem printing (f : World → Console) :
    Leads Go (Watched.quietly (modify fun w : World => { w with console := f w })) :=
  fun s => ⟨Throughout.printed s _, trivial⟩

theorem mark (m : Moment) (site : Site) (n : Node) : Leads Go (mark m site n) :=
  fun s => ⟨Throughout.marked s m site n, trivial⟩

theorem mapM {f : α → Watching β} (hf : ∀ a, Leads Go (f a)) (as : List α) :
    Leads Go (as.mapM f) := fun s => .mapM_trivially (fun a _ t _ => hf a t) (Throughout.refl s)

theorem forM {f : α → Watching Unit} (hf : ∀ a, Leads Go (f a)) (as : List α) :
    Leads Go (as.forM f) := fun s => .forM (fun a _ t _ => hf a t) (Throughout.refl s)

theorem loop {condition : Watching Bool} {body increment : Watching Unit} (hc : Leads Go condition)
    (hb : Leads Go body) (hi : Leads Go increment) (patience : Nat) :
    Leads Go (loop condition body increment patience) := fun s =>
  loop_yields (fun t _ => hc t) (fun t _ => hb t) (fun t _ => hi t) (fun _ => trivial)
    (Throughout.refl s) patience

/-! ### Scopes and objects -/

theorem newScope (c : Construct) (parent : Ref .scope) : Leads Go (newScope c parent) :=
  .bind (.quietly (Eval.inside_newScope parent)) fun r =>
    .bind (fun s => ⟨Throughout.opened s r c, trivial⟩) fun _ => .pure r

theorem bound (f : Closure) (receiver : Ref .instance) : Leads Go (bound f receiver) :=
  .bind (.newScope _ _) fun _ => .bind (.quietly (Eval.inside_define _ _ _)) fun _ => .pure _

theorem method (f : Closure) (receiver : Ref .instance) :
    Leads Go (Watching.bound f receiver >>= fun f => Watched.quietly (Eval.newFunction f)) :=
  .bind (.bound f receiver) fun _ => .quietly (Eval.inside_newFunction _)

theorem property (object : Value) (name : Token) : Leads Go (property object name) := by
  refine .looking fun w => ?_
  cases object with
  | «instance» r =>
      dsimp only
      cases (w.instances.get r).fields.find? name.lexeme with
      | some v => exact .pure v
      | none =>
          dsimp only
          cases w.method? (w.instances.get r).classRef name.lexeme with
          | some f => exact .method f r
          | none => exact .quietly (.throw _)
  | module r =>
      dsimp only
      cases w.scopes.find? (w.globals (w.modules.get r).home) name.lexeme with
      | some v => exact .pure v
      | none => exact .quietly (.throw _)
  | _ => exact .quietly (.throw _)

theorem superMethod (site : Site) (use : NameUse) (method : Token) :
    Leads Go (superMethod site use method) := by
  unfold Watching.superMethod
  cases use.hops with
  | none => exact .quietly (.throw _)
  | some hops =>
      refine .bind (.quietly (Eval.inside_loadAt _ _ _)) fun superclass => ?_
      refine .bind (.quietly (Eval.inside_loadAt _ _ _)) fun receiver => ?_
      cases superclass <;> cases receiver <;> try exact .quietly (.throw _)
      refine .looking fun w => ?_
      rename_i c i
      cases w.method? c method.lexeme with
      | some f => exact .method f i
      | none => exact .quietly (.throw _)

theorem superclass (site : Site) (use : NameUse) : Leads Go (superclass site use) :=
  .bind (.mark _ _ _) fun _ => .quietly (Eval.inside_superclass site use)

theorem declareClass (site : Site) (name : Token) (parent : Option (Ref .class))
    (methods : List FunctionDecl) : Leads Go (declareClass site name parent methods) := by
  refine .bind (.quietly (Eval.inside_define _ _ _)) fun _ => ?_
  have hmade : ∀ c, Leads Go (Watched.quietly (Eval.newClass c) >>= fun v =>
      Watched.quietly (Eval.define site.scope name.lexeme v)) := fun _ =>
    .bind (.quietly (Eval.inside_newClass _)) fun _ => .quietly (Eval.inside_define _ _ _)
  cases parent with
  | none => exact .bind (.pure _) fun _ => hmade _
  | some c =>
      exact .bind (.newScope _ _) fun _ => .bind (.quietly (Eval.inside_define _ _ _)) fun _ =>
        .bind (.pure _) fun _ => hmade _

/-! ### Calls and modules -/

section
variable {run : Site → Stmt → Watching Unit} (hrun : ∀ site st, Leads Go (run site st))
include hrun

theorem callFunction (f : Closure) (arguments : List Value) :
    Leads Go (callFunction run f arguments) := by
  refine .bind (.newScope _ _) fun scope =>
    .bind (.forM (fun _ => .quietly (Eval.inside_define _ _ _)) _) fun _ =>
      .bind (.returned (.forM (hrun _) _)) fun v => ?_
  by_cases hi : f.isInitializer = true
  · rw [if_pos hi]
    exact .quietly (Eval.inside_loadAt _ _ _)
  · rw [if_neg hi]
    exact .pure _

theorem callValue (callee : Value) (arguments : List Value) :
    Leads Go (callValue run callee arguments) := by
  refine .looking fun w => ?_
  cases callee with
  | function r => exact callFunction hrun _ arguments
  | «class» r =>
      refine .bind (.quietly (Eval.inside_newInstance r)) fun i => ?_
      cases w.method? r "init" with
      | some f =>
          exact .bind (.bound f i) fun f => .bind (callFunction hrun f arguments) fun _ => .pure _
      | none => exact .pure _
  | _ => exact .pure _

theorem importModule (levels : Nat) (home : Ref .interpreter) (token : Token) :
    Leads Go (importModule levels run home token) := by
  refine .looking fun w => ?_
  dsimp only
  cases w.findModule home (importedModule token) with
  | nothing => exact .quietly (.throw _)
  | nameTooLong => exact .quietly (.throw _)
  | entry place e =>
      dsimp only
      cases (w.loaders.get (w.interpreters.get home).loader).cached? place with
      | some m => exact .bind (.printing _) fun _ => .pure m
      | none =>
          exact .bind (.quietly (Eval.inside_readModule _ _ _)) fun source =>
            Throughout.loaded hrun levels _ token _ place source

end
end Leads

/-! ### Trees -/

/-- Whatever is evaluated goes along the relation. -/
structure LevelLeads (Go : Watched World Event → Watched World Event → Prop)
    (patience levels : Nat) : Prop where
  expression : ∀ site e, Leads Go (expression patience levels site e)
  call : ∀ callee arguments, Leads Go (call patience levels callee arguments)
  statement : ∀ site st, Leads Go (statement patience levels site st)

variable [Throughout Go]

namespace LevelLeads
variable {patience levels : Nat} (ih : LevelLeads Go patience levels) (site : Site)
include ih

theorem expression_succ (e : Expr) :
    Leads Go (Watching.expression patience (levels + 1) site e) := by
  unfold Watching.expression
  refine .bind (.mark _ _ _) fun _ => ?_
  cases e with
  | literal l => exact .pure _
  | grouping inner => exact ih.expression site inner
  | name use => exact .quietly (Eval.inside_read site use)
  | this use => exact .quietly (Eval.inside_read site use)
  | assign use value =>
      exact .bind (ih.expression site value) fun v => .bind (.mark _ _ _) fun _ =>
        .bind (.quietly (Eval.inside_assign site use v)) fun _ => .pure v
  | unary op token operand =>
      exact .bind (ih.expression site operand) fun _ => .quietly (Eval.inside_ofOperator token _)
  | binary left op token right =>
      exact .bind (ih.expression site left) fun _ => .bind (ih.expression site right) fun _ =>
        .quietly (Eval.inside_ofOperator token _)
  | logical left op token right =>
      refine .bind (ih.expression site left) fun v => ?_
      by_cases h : op.decides v = true
      · simp only [h, if_true]
        exact .pure v
      · simp only [h]
        exact ih.expression site right
  | call callee paren arguments =>
      exact .bind (ih.expression site callee) fun f =>
        .bind (.mapM (ih.expression site) arguments) fun vs =>
          .bind (.quietly (Eval.inside_checkCall f paren _)) fun _ => .atCall (ih.call f vs)
  | get object name => exact .bind (ih.expression site object) fun o => .property o name
  | set object name value =>
      exact .bind (ih.expression site object) fun o =>
        .bind (.quietly (Eval.inside_checkFields o name)) fun _ =>
          .bind (ih.expression site value) fun v => .bind (.mark _ _ _) fun _ =>
            .bind (.quietly (Eval.inside_setProperty o name v)) fun _ => .pure v
  | super use method => exact .superMethod site use method
  | lambda function => exact .quietly (Eval.inside_newFunction _)

theorem statement_succ (st : Stmt) :
    Leads Go (Watching.statement patience (levels + 1) site st) := by
  unfold Watching.statement
  refine .bind (.mark _ _ _) fun _ => ?_
  cases st with
  | expression e => exact .bind (ih.expression site e) fun _ => .pure _
  | print e => exact .bind (ih.expression site e) fun v => .printing _
  | var mutability name initial =>
      have hdefine : ∀ v, Leads Go (Watched.quietly (Eval.define site.scope name.lexeme v) >>=
          fun _ => Watching.mark .declared site (.stmt (.var mutability name initial))) := fun _ =>
        .bind (.quietly (Eval.inside_define _ _ _)) fun _ => .mark _ _ _
      cases initial with
      | none => exact .bind (.pure _) hdefine
      | some e => exact .bind (ih.expression site e) hdefine
  | block body => exact .bind (.newScope _ _) fun scope => .forM (ih.statement _) body
  | «if» condition thenBranch elseBranch =>
      refine .bind (ih.expression site condition) fun v => ?_
      by_cases h : v.truthy = true
      · simp only [h, if_true]
        exact ih.statement site thenBranch
      · simp only [h]
        cases elseBranch with
        | none => exact .pure _
        | some s => exact ih.statement site s
  | «while» condition body increment =>
      refine .loop (.map (ih.expression site condition) _) (ih.statement site body) ?_ patience
      cases increment with
      | none => exact .pure _
      | some e => exact .map (ih.expression site e) _
  | «break» keyword => exact .throw _
  | «continue» keyword => exact .throw _
  | «return» keyword value =>
      cases value with
      | none => exact .bind (.pure _) fun _ => .throw _
      | some e => exact .bind (ih.expression site e) fun _ => .throw _
  | function f =>
      exact .quietly (.bind (Eval.inside_newFunction _) fun _ => Eval.inside_define _ _ _)
  | «class» name parent methods =>
      have hdeclare : ∀ parent, Leads Go (Watching.declareClass site name parent methods) :=
        fun parent => .declareClass site name parent methods
      cases parent with
      | none => exact .bind (.pure _) hdeclare
      | some use => exact .bind (.map (.superclass site use) _) hdeclare
  | importModule keyword name as =>
      exact .bind (.importModule ih.statement _ site.home name) fun m =>
        .quietly (Eval.inside_define _ _ _)

end LevelLeads

theorem levelLeads (patience levels : Nat) : LevelLeads Go patience levels := by
  induction levels with
  | zero => exact ⟨fun _ _ => .throw _, fun _ _ => .throw _, fun _ _ => .throw _⟩
  | succ levels ih =>
      exact
        { expression := ih.expression_succ
          call := fun callee arguments => .callValue ih.statement callee arguments
          statement := ih.statement_succ }

end Watching
end Treewalk
