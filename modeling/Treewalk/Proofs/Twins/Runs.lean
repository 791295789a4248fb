import Treewalk.Proofs.Twins.Steps
import Treewalk.Proofs.Run.Sessions

/-!
# Twin runs

Code and the same code some lines further down do the same in twin worlds, with the same nesting and
the same patience, whatever they call and import.
-/
namespace Treewalk

/-- A new interpreter has no constants. -/
theorem World.constants_addInterpreter (w : World) (unit : String) (loader : Ref .loader) :
    ((w.addInterpreter unit loader).interpreters.get w.interpreters.next).constants = [] := by
  unfold World.addInterpreter
  split
  · exact congrArg Interpreter.constants (Arena.get_add_next ..)
  · exact congrArg Interpreter.constants (Arena.get_add_next ..)

namespace Likeness
variable {d : Likeness} {α : Type}

/-- Units that end in the same way, but that an error may be some lines further down. -/
inductive Completions (d : Likeness) : Eval.Completion → Eval.Completion → Prop
  | rejected : d.Completions .rejected .rejected
  | completed : d.Completions .completed .completed
  | failed {n : Nat} (token : Token) (cause : RuntimeCause) : d.moved n →
      d.Completions (.failed ⟨token, cause⟩) (.failed ⟨token.down n, cause⟩)

/-! ### Taking interrupts -/

theorem agree_round {p q : Eval Unit} (h : d.Agree Eq p q) :
    d.Agree Eq (Eval.round p) (Eval.round q) := by
  intro w w' hw
  have hpq := h w w' hw
  unfold Eval.round
  generalize p w = r at hpq
  generalize q w' = r' at hpq
  cases hpq with
  | ok _ ht => exact .ok rfl ht
  | @error i _ _ _ hi ht =>
      cases hi with
      | same =>
          cases i with
          | signal c => cases c <;> first | exact .ok rfl ht | exact .error (.same _) ht
          | _ => exact .error (.same _) ht
      | down token cause hn => exact .error (.down token cause hn) ht

theorem agree_loop {condition condition' : Eval Bool} {body body' increment increment' : Eval Unit}
    (hc : d.Agree Eq condition condition') (hb : d.Agree Eq body body')
    (hi : d.Agree Eq increment increment') (patience : Nat) :
    d.Agree Eq (Eval.loop condition body increment patience)
      (Eval.loop condition' body' increment' patience) := by
  induction patience with
  | zero => exact .throw (.same _)
  | succ patience ih =>
      refine hc.bind fun go go' hgo => ?_
      subst hgo
      cases go with
      | false => exact .pure rfl
      | true =>
          refine (agree_round hb).bind fun go go' hgo => ?_
          subst hgo
          cases go with
          | false => exact .pure rfl
          | true => exact hi.bind fun _ _ _ => ih

theorem agree_returned {p q : Eval Unit} (h : d.Agree Eq p q) :
    d.Agree Eq (Eval.returned p) (Eval.returned q) := by
  intro w w' hw
  have hpq := h w w' hw
  unfold Eval.returned
  generalize p w = r at hpq
  generalize q w' = r' at hpq
  cases hpq with
  | ok _ ht => exact .ok rfl ht
  | @error i _ _ _ hi ht =>
      cases hi with
      | same =>
          cases i with
          | signal c => cases c <;> first | exact .ok rfl ht | exact .error (.same _) ht
          | _ => exact .error (.same _) ht
      | down token cause hn => exact .error (.down token cause hn) ht

theorem agree_atCall {n : Nat} (hn : d.moved n) (paren : Token) {p q : Eval α}
    (h : d.Agree Eq p q) : d.Agree Eq (Eval.atCall paren p) (Eval.atCall (paren.down n) q) := by
  intro w w' hw
  have hpq := h w w' hw
  unfold Eval.atCall
  generalize p w = r at hpq
  generalize q w' = r' at hpq
  cases hpq with
  | ok hab ht => exact .ok hab ht
  | @error i _ _ _ hi ht =>
      cases hi with
      | same =>
          cases i with
          | overflow => exact .error (.down paren .stackOverflow hn) ht
          | _ => exact .error (.same _) ht
      | down token cause hn => exact .error (.down token cause hn) ht

/-! ### Calls -/

/-- Statements that do the same further down. -/
def Runs (d : Likeness) (run : Site → Stmt → Eval Unit) : Prop :=
  ∀ (n : Nat) (site : Site) (st : Stmt), d.moved n →
    d.Agree Eq (run site st) (run site (st.down n))

section Running
variable {run : Site → Stmt → Eval Unit} (hrun : d.Runs run)
include hrun

theorem agree_body {n : Nat} (hn : d.moved n) (site : Site) (body : List Stmt) :
    d.Agree Eq (body.forM (run site)) ((body.map (Stmt.down n)).forM (run site)) := by
  refine Agree.forM (R := fun st st' => st' = st.down n) ?_ fun st st' hst => hst ▸ hrun n site st hn
  exact List.forall₂_map_right_iff.mpr (List.forall₂_same.mpr fun _ _ => rfl)

theorem agree_callFunction {f f' : Closure} (hf : d.Closures f f') (arguments : List Value) :
    d.Agree Eq (Eval.callFunction run f arguments) (Eval.callFunction run f' arguments) := by
  obtain ⟨n, hn, rfl⟩ := hf
  refine (agree_newScope f.scope).bind fun scope scope' hscope => ?_
  subst hscope
  have hparameters : d.Agree Eq
      ((f.declaration.parameters.zip arguments).forM fun pv => Eval.define scope pv.1.lexeme pv.2)
      (((f.down n).declaration.parameters.zip arguments).forM fun pv =>
        Eval.define scope pv.1.lexeme pv.2) := by
    have hzip : List.Forall₂ (fun pv pv' : Token × Value => pv' = (pv.1.down n, pv.2))
        (f.declaration.parameters.zip arguments)
        ((f.down n).declaration.parameters.zip arguments) := by
      unfold Closure.down
      rw [FunctionDecl.parameters_down, List.zip_map_left]
      exact List.forall₂_map_right_iff.mpr (List.forall₂_same.mpr fun _ _ => rfl)
    refine Agree.forM hzip fun pv pv' hpv => ?_
    rw [hpv]
    exact agree_define _ _ _
  refine hparameters.bind fun _ _ _ => ?_
  have hbody := agree_body hrun hn ⟨f.home, scope⟩ f.declaration.body
  rw [← FunctionDecl.body_down] at hbody
  refine (agree_returned hbody).bind fun v v' hv => ?_
  subst hv
  change d.Agree Eq (if f.isInitializer then Eval.loadAt f.scope 0 "this" else pure v)
    (if f.isInitializer then Eval.loadAt f.scope 0 "this" else pure v)
  by_cases hi : f.isInitializer = true
  · rw [if_pos hi]
    exact agree_loadAt _ _ _
  · rw [if_neg hi]
    exact .pure rfl

theorem agree_callValue (callee : Value) (arguments : List Value) :
    d.Agree Eq (Eval.callValue run callee arguments) (Eval.callValue run callee arguments) := by
  refine .looking fun w w' hw => ?_
  cases callee with
  | function r => exact agree_callFunction hrun (hw.functions.get r) arguments
  | «class» r =>
      refine (agree_newInstance r).bind fun i i' hi => ?_
      subst hi
      rcases hw.method? r "init" with ⟨hm, hm'⟩ | ⟨f, f', hm, hm', hf⟩
      · simp only [hm, hm']
        exact .pure rfl
      · simp only [hm, hm']
        refine (agree_bound hf i).bind fun g g' hg => ?_
        exact (agree_callFunction hrun hg arguments).bind fun _ _ _ => .pure rfl
  | clock home =>
      dsimp only
      rw [hw.now]
      exact .pure rfl
  | _ => exact .pure rfl

/-! ### Units and modules -/

theorem agree_runStatements {n : Nat} (hn : d.moved n) (home : Ref .interpreter)
    (statements : List Stmt) : d.Agree d.Completions (Eval.runStatements run home statements)
      (Eval.runStatements run home (statements.map (Stmt.down n))) := by
  intro w w' hw
  have hbody := agree_body hrun hn ⟨home, w.globals home⟩ statements w w' hw
  unfold Eval.runStatements
  rw [hw.globals home]
  generalize statements.forM (run ⟨home, w.globals home⟩) w = r at hbody
  generalize (statements.map (Stmt.down n)).forM (run ⟨home, w.globals home⟩) w' = r' at hbody
  cases hbody with
  | ok _ ht => exact .ok .completed ht
  | @error i _ _ _ hi ht =>
      cases hi with
      | same =>
          cases i with
          | error e =>
              have hreport := ht.reportRuntime home d.unmoved e
              exact .ok (.failed e.token e.cause d.unmoved) hreport
          | _ => exact .error (.same _) ht
      | down token cause hm => exact .ok (.failed token cause hm) (ht.reportRuntime home hm _)

/-- The same unit. -/
theorem agree_execute (home : Ref .interpreter) (u : CompiledUnit) :
    d.Agree d.Completions (Eval.execute run home u) (Eval.execute run home u) := by
  unfold Eval.execute
  by_cases hok : u.ok = true
  · rw [if_pos hok]
    have hrest := agree_runStatements hrun d.unmoved home u.statements
    rw [← downStmts_eq, downStmts_zero] at hrest
    exact Agree.bind (R := Eq)
      (.modify fun w w' hw => hw.updateInterpreter home (d.prepare u.constants (some u.file)))
      fun _ _ _ => hrest
  · rw [if_neg hok]
    exact Agree.bind (R := Eq) (.modify fun w w' hw => hw.log _) fun _ _ _ => .pure .rejected

theorem agree_loadModule {n : Nat} (hn : d.moved n) (levels : Nat) (loader : Ref .loader)
    (token : Token) (name : String) (place : RealPath) (source : String) :
    d.Agree Eq (Eval.loadModule levels run loader token name place source)
      (Eval.loadModule levels run loader (token.down n) name place source) := by
  refine .looking fun w w' hw => ?_
  have hadd := (hw.log (.moduleLoading name place.text)).addInterpreter name loader
  have hc := (w.log (.moduleLoading name place.text)).constants_addInterpreter name loader
  have hc' := (w'.log (.moduleLoading name place.text)).constants_addInterpreter name loader
  have hnext : w'.interpreters.next = w.interpreters.next := hw.interpreters.next
  dsimp only
  rw [hnext, hw.modules]
  change (((w'.log _).addInterpreter name loader).interpreters.get w'.interpreters.next).constants =
    [] at hc'
  rw [hnext] at hc'
  change (((w.log _).addInterpreter name loader).interpreters.get w.interpreters.next).constants =
    [] at hc
  generalize (w.log (.moduleLoading name place.text)).addInterpreter name loader = v at *
  generalize (w'.log (.moduleLoading name place.text)).addInterpreter name loader = v' at *
  have hmodule : d.Twins
      { v with modules := v.modules.add ⟨name, place.text, w.interpreters.next⟩ }
      { v' with modules := v'.modules.add ⟨name, place.text, w.interpreters.next⟩ } :=
    { hadd with modules := by rw [hadd.modules] }
  have hregister := hmodule.updateLoader loader fun l => l.register place w.modules.next
  obtain ⟨hunit, hprepared⟩ := hregister.compile levels w.interpreters.next place.text source
    (hc'.trans hc.symm)
  rw [hunit]
  have hforget : ∀ cause, d.Agree (α := Ref .module) (β := Ref .module) Eq (do
      modify fun w => w.updateLoader loader fun l => l.forget place
      Eval.fail token cause) (do
      modify fun w => w.updateLoader loader fun l => l.forget place
      Eval.fail (token.down n) cause) := fun cause =>
    Agree.bind (R := Eq) (.modify fun w w' hw => hw.updateLoader loader _)
      fun _ _ _ => agree_fail hn token cause
  refine Agree.bind (R := Eq) (fun _ _ _ => .ok rfl hprepared) fun _ _ _ => ?_
  refine (agree_execute hrun _ _).bind fun c c' hcc => ?_
  cases hcc with
  | rejected => exact hforget _
  | completed => exact .pure rfl
  | failed token cause hm => exact hforget _

theorem agree_importModule {n : Nat} (hn : d.moved n) (levels : Nat) (home : Ref .interpreter)
    (token : Token) :
    d.Agree Eq (Eval.importModule levels run home token)
      (Eval.importModule levels run home (token.down n)) := by
  refine .looking fun w w' hw => ?_
  have hloader := (hw.interpreters.get home).same.2.2.1
  dsimp only
  rw [importedModule_down, hw.findModule, hw.loaders, hloader]
  cases w.findModule home (importedModule token) with
  | nothing => exact agree_fail hn _ _
  | nameTooLong => exact agree_crash _
  | entry place e =>
      dsimp only
      cases (w.loaders.get (w.interpreters.get home).loader).cached? place with
      | some m =>
          exact Agree.bind (R := Eq) (.modify fun w w' hw => hw.log _) fun _ _ _ => .pure rfl
      | none =>
          refine (agree_readModule hn token _ e).bind fun source source' hsource => ?_
          subst hsource
          exact agree_loadModule hrun hn levels _ token _ place source

end Running

/-! ### Trees -/

/-- Trees do the same further down. -/
structure LevelAgrees (d : Likeness) (patience levels : Nat) : Prop where
  expression : ∀ (n : Nat) (site : Site) (e : Expr), d.moved n →
    d.Agree Eq (Eval.expression patience levels site e)
      (Eval.expression patience levels site (e.down n))
  call : ∀ (callee : Value) (arguments : List Value),
    d.Agree Eq (Eval.call patience levels callee arguments)
      (Eval.call patience levels callee arguments)
  statement : d.Runs (Eval.statement patience levels)

namespace LevelAgrees
variable {patience levels n : Nat}

theorem expression_succ (ih : d.LevelAgrees patience levels) (hn : d.moved n) (site : Site)
    (e : Expr) : d.Agree Eq (Eval.expression patience (levels + 1) site e)
      (Eval.expression patience (levels + 1) site (e.down n)) := by
  have hpart := fun e => ih.expression n site e hn
  cases e with
  | literal l =>
      unfold Eval.expression Expr.down
      exact .pure rfl
  | grouping inner =>
      unfold Eval.expression Expr.down
      exact hpart inner
  | name use =>
      unfold Eval.expression Expr.down
      exact agree_read hn site use
  | this use =>
      unfold Eval.expression Expr.down
      exact agree_read hn site use
  | assign use value =>
      unfold Eval.expression Expr.down
      refine (hpart value).bind fun v v' hv => ?_
      subst hv
      exact (agree_assign hn site use v).bind fun _ _ _ => .pure rfl
  | unary op token operand =>
      unfold Eval.expression Expr.down
      refine (hpart operand).bind fun v v' hv => ?_
      subst hv
      exact agree_ofOperator hn token _
  | binary left op token right =>
      unfold Eval.expression Expr.down
      refine (hpart left).bind fun l l' hl => (hpart right).bind fun r r' hr => ?_
      subst hl hr
      exact agree_ofOperator hn token _
  | logical left op token right =>
      unfold Eval.expression Expr.down
      refine (hpart left).bind fun v v' hv => ?_
      subst hv
      by_cases h : op.decides v = true
      · simp only [h, if_true]
        exact .pure rfl
      · simp only [h]
        exact hpart right
  | call callee paren arguments =>
      unfold Eval.expression Expr.down
      refine (hpart callee).bind fun f f' hf => ?_
      have harguments : d.Agree Eq (arguments.mapM (Eval.expression patience levels site))
          ((downExprs n arguments).mapM (Eval.expression patience levels site)) := by
        rw [downExprs_eq]
        refine Agree.mapM (R := fun e e' => e' = e.down n) ?_ fun e e' he => he ▸ hpart e
        exact List.forall₂_map_right_iff.mpr (List.forall₂_same.mpr fun _ _ => rfl)
      refine harguments.bind fun vs vs' hvs => ?_
      subst hf hvs
      exact (agree_checkCall hn f paren vs.length).bind fun _ _ _ =>
        agree_atCall hn paren (ih.call f vs)
  | get object name =>
      unfold Eval.expression Expr.down
      refine (hpart object).bind fun o o' ho => ?_
      subst ho
      exact agree_property hn o name
  | set object name value =>
      unfold Eval.expression Expr.down
      refine (hpart object).bind fun o o' ho => ?_
      subst ho
      refine (agree_checkFields hn o name).bind fun _ _ _ => (hpart value).bind fun v v' hv => ?_
      subst hv
      exact (agree_setProperty hn o name v).bind fun _ _ _ => .pure rfl
  | super use method =>
      unfold Eval.expression Expr.down
      exact agree_superMethod hn site use method
  | lambda function =>
      unfold Eval.expression Expr.down
      exact agree_newFunction ⟨n, hn, rfl⟩

theorem statement_succ (ih : d.LevelAgrees patience levels) (hn : d.moved n) (site : Site)
    (st : Stmt) : d.Agree Eq (Eval.statement patience (levels + 1) site st)
      (Eval.statement patience (levels + 1) site (st.down n)) := by
  have hpart := fun e => ih.expression n site e hn
  have hinner := fun st => ih.statement n site st hn
  cases st with
  | expression e =>
      unfold Eval.statement Stmt.down
      exact (hpart e).bind fun _ _ _ => .pure rfl
  | print e =>
      unfold Eval.statement Stmt.down
      refine (hpart e).bind fun v v' hv => .modify fun w w' hw => ?_
      subst hv
      rw [hw.display]
      have hout : (w'.console.print (w.display v)).out = (w.console.print (w.display v)).out := by
        unfold Console.print
        rw [hw.out]
      exact { hw with out := hout }
  | var mutability name initial =>
      cases initial with
      | none =>
          unfold Eval.statement Stmt.down
          exact agree_define _ _ _
      | some e =>
          unfold Eval.statement Stmt.down
          refine (hpart e).bind fun v v' hv => ?_
          subst hv
          exact agree_define _ _ _
  | block body =>
      unfold Eval.statement Stmt.down
      refine (agree_newScope site.scope).bind fun scope scope' hscope => ?_
      subst hscope
      rw [downStmts_eq]
      exact agree_body ih.statement hn _ body
  | «if» condition thenBranch elseBranch =>
      cases elseBranch with
      | none =>
          unfold Eval.statement Stmt.down
          refine (hpart condition).bind fun v v' hv => ?_
          subst hv
          by_cases h : v.truthy = true
          · simp only [h, if_true]
            exact hinner thenBranch
          · simp only [h]
            exact .pure rfl
      | some s =>
          unfold Eval.statement Stmt.down
          refine (hpart condition).bind fun v v' hv => ?_
          subst hv
          by_cases h : v.truthy = true
          · simp only [h, if_true]
            exact hinner thenBranch
          · simp only [h]
            exact hinner s
  | «while» condition body increment =>
      have htest := (hpart condition).map (S := Eq) (f := Value.truthy) (g := Value.truthy)
        fun v v' hv => congrArg Value.truthy hv
      cases increment with
      | none =>
          unfold Eval.statement Stmt.down
          exact agree_loop htest (hinner body) (.pure rfl) patience
      | some e =>
          unfold Eval.statement Stmt.down
          exact agree_loop htest (hinner body) ((hpart e).map fun _ _ _ => rfl) patience
  | «break» keyword =>
      unfold Eval.statement Stmt.down
      exact .throw (.same _)
  | «continue» keyword =>
      unfold Eval.statement Stmt.down
      exact .throw (.same _)
  | «return» keyword value =>
      cases value with
      | none =>
          unfold Eval.statement Stmt.down
          exact .throw (.same _)
      | some e =>
          unfold Eval.statement Stmt.down
          refine (hpart e).bind fun v v' hv => ?_
          subst hv
          exact .throw (.same _)
  | function f =>
      unfold Eval.statement Stmt.down
      refine (agree_newFunction ⟨n, hn, rfl⟩).bind fun v v' hv => ?_
      subst hv
      rw [FunctionDecl.displayName_down]
      exact agree_define _ _ _
  | «class» name parent methods =>
      unfold Eval.statement Stmt.down
      rw [downFunctions_eq]
      have hparent : d.Agree Eq (parent.mapM (Eval.superclass site))
          ((parent.map (NameUse.down n)).mapM (Eval.superclass site)) := by
        cases parent with
        | none => exact .pure rfl
        | some use => exact (agree_superclass hn site use).map fun _ _ h => congrArg some h
      refine hparent.bind fun p p' hp => ?_
      subst hp
      exact agree_declareClass hn site name p methods
  | importModule keyword name as =>
      unfold Eval.statement Stmt.down
      refine (agree_importModule ih.statement hn _ site.home name).bind fun m m' hm => ?_
      subst hm
      rw [importBinding_down]
      exact agree_define _ _ _

end LevelAgrees

/-- Trees do the same further down, whatever the levels. -/
theorem levelAgrees (d : Likeness) (patience levels : Nat) : d.LevelAgrees patience levels := by
  induction levels with
  | zero =>
      constructor
      · exact fun _ _ _ _ => .throw (.same _)
      · exact fun _ _ => .throw (.same _)
      · exact fun _ _ _ _ => .throw (.same _)
  | succ levels ih =>
      constructor
      · exact fun n site e hn => ih.expression_succ hn site e
      · exact fun callee vs => agree_callValue ih.statement callee vs
      · exact fun n site st hn => ih.statement_succ hn site st

end Likeness
end Treewalk
