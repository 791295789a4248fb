import Treewalk.Proofs.Parentheses.Steps
import Treewalk.Proofs.Loops.Runs

/-!
# Runs with parentheses

Code with parentheses does what the code without them does, whatever it calls and imports, with at
most as many levels, unless these run out.
-/
namespace Treewalk

open Resolve (Anywhere)

namespace Eval
variable {α β : Type} {R : α → β → Prop}

/-! ### Taking interrupts -/

namespace AlikeEnds

theorem round {r r' : Ending Unit} (h : AlikeEnds Eq r r') : AlikeEnds Eq r.round r'.round := by
  cases h with
  | ok _ hw => exact .ok rfl hw
  | error i hw =>
      cases i with
      | signal c => cases c <;> first | exact .ok rfl hw | exact .error _ hw
      | _ => exact .error _ hw
  | short r hr => exact .short _ hr.round

theorem returned {r r' : Ending Unit} (h : AlikeEnds Eq r r') :
    AlikeEnds Eq r.returned r'.returned := by
  cases h with
  | ok _ hw => exact .ok rfl hw
  | error i hw =>
      cases i with
      | signal c => cases c <;> first | exact .ok rfl hw | exact .error _ hw
      | _ => exact .error _ hw
  | short r hr => exact .short _ hr.returned

theorem atCall {r : Ending α} {r' : Ending β} (h : AlikeEnds R r r') (paren : Token) :
    AlikeEnds R (r.atCall paren) (r'.atCall paren) := by
  cases h with
  | ok hab hw => exact .ok hab hw
  | error i hw => cases i <;> exact .error _ hw
  | short r hr => exact .short _ (hr.atCall paren)

end AlikeEnds

theorem alike_loop {condition condition' : Eval Bool} {body body' increment increment' : Eval Unit}
    (hc : Alike Eq condition condition') (hb : Alike Eq body body')
    (hi : Alike Eq increment increment') (patience : Nat) :
    Alike Eq (loop condition body increment patience)
      (loop condition' body' increment' patience) := by
  have hround : Alike Eq (round body) (round body') := fun w w' hw => (hb w w' hw).round
  induction patience with
  | zero => exact .throw _
  | succ patience ih =>
      refine hc.bind fun go go' hgo => ?_
      subst hgo
      cases go with
      | false => exact .pure rfl
      | true =>
          refine hround.bind fun go go' hgo => ?_
          subst hgo
          cases go with
          | false => exact .pure rfl
          | true => exact hi.bind fun _ _ _ => ih

/-! ### Calls -/

/-- Statements that do the same, the second ones with parentheses. -/
def AlikeRuns (run run' : Site → Stmt → Eval Unit) : Prop :=
  ∀ (site : Site) {s s' : Stmt}, s.Grouped Anywhere s' → Alike Eq (run site s) (run' site s')

/-- Units that end in the same way, unless the limit cut the second one short. -/
inductive UnitsAlike : Ending Completion → Ending Completion → Prop
  | ended (completion : Completion) {w w' : World} : w.Grouped w' →
      UnitsAlike (.ok completion w) (.ok completion w')
  | stopped (i : Interrupt) {w w' : World} : w.Grouped w' → UnitsAlike (.error i w) (.error i w')
  | short (r : Ending Completion) {r' : Ending Completion} : r'.UnitShort → UnitsAlike r r'

theorem AlikeEnds.reported {r r' : Ending Unit} (h : AlikeEnds Eq r r')
    (home : Ref .interpreter) : UnitsAlike (r.reported home) (r'.reported home) := by
  cases h with
  | ok _ hw => exact .ended _ hw
  | error i hw =>
      cases i with
      | error e => exact .ended _ (hw.reportRuntime home e)
      | _ => exact .stopped _ hw
  | short r hr => exact .short _ (hr.reported home)

theorem UnitsAlike.loaded {r r' : Ending Completion} (h : UnitsAlike r r') (loader : Ref .loader)
    (token : Token) (name : String) (place : RealPath) (m : Ref .module) :
    AlikeEnds Eq (r.loaded loader token name place m) (r'.loaded loader token name place m) := by
  cases h with
  | ended completion hw =>
      have hforgotten := hw.updateLoader loader fun l => l.forget place
      cases completion with
      | completed => exact .ok rfl hw
      | rejected => exact .error _ hforgotten
      | failed e => exact .error _ hforgotten
  | stopped i hw => exact .error i hw
  | short r hr => exact .short _ (hr.loaded loader token name place m)

section Running
variable {run run' : Site → Stmt → Eval Unit} (hrun : AlikeRuns run run')
include hrun

theorem alike_callFunction {f f' : Closure} (hf : f.Grouped f') (arguments : List Value) :
    Alike Eq (callFunction run f arguments) (callFunction run' f' arguments) := by
  cases hf with
  | @mk declaration hd =>
      refine (alike_newScope f.scope).bind fun scope scope' hscope => ?_
      subst hscope
      rw [hd.parameters]
      have hdefine : ∀ pv pv' : Token × Value, pv = pv' → Alike Eq
          (define scope pv.1.lexeme pv.2) (define scope pv'.1.lexeme pv'.2) := by
        intro pv pv' hpv
        subst hpv
        exact alike_define _ _ _
      have hparameters : List.Forall₂ Eq (f.declaration.parameters.zip arguments)
          (f.declaration.parameters.zip arguments) := List.forall₂_same.mpr fun _ _ => rfl
      refine (Alike.forM hparameters hdefine).bind fun _ _ _ => ?_
      have hbody : Alike Eq (f.declaration.body.forM (run ⟨f.home, scope⟩))
          (declaration.body.forM (run' ⟨f.home, scope⟩)) := .forM hd.body fun _ _ hs => hrun _ hs
      have hreturned : Alike Eq (returned (f.declaration.body.forM (run ⟨f.home, scope⟩)))
          (returned (declaration.body.forM (run' ⟨f.home, scope⟩))) :=
        fun w w' hw => (hbody w w' hw).returned
      refine hreturned.bind fun v v' hv => ?_
      subst hv
      change Alike Eq (if f.isInitializer then loadAt f.scope 0 "this" else pure v)
        (if f.isInitializer then loadAt f.scope 0 "this" else pure v)
      by_cases hi : f.isInitializer = true
      · rw [if_pos hi]
        exact alike_loadAt _ _ _
      · rw [if_neg hi]
        exact .pure rfl

theorem alike_callValue (callee : Value) (arguments : List Value) :
    Alike Eq (callValue run callee arguments) (callValue run' callee arguments) := by
  refine .looking fun w w' hw => ?_
  cases callee with
  | function r => exact alike_callFunction hrun (hw.functions.get r) arguments
  | «class» r =>
      refine (alike_newInstance r).bind fun i i' hi => ?_
      subst hi
      rcases hw.method? r "init" with ⟨hm, hm'⟩ | ⟨f, f', hm, hm', hf⟩
      · simp only [hm, hm']
        exact .pure rfl
      · simp only [hm, hm']
        refine (alike_bound hf i).bind fun g g' hg => ?_
        exact (alike_callFunction hrun hg arguments).bind fun _ _ _ => .pure rfl
  | clock home =>
      cases hw
      exact .pure rfl
  | _ => exact .pure rfl

/-! ### Units and modules -/

theorem unitsAlike_runStatements {w w' : World} (hw : w.Grouped w') (home : Ref .interpreter)
    {ss ss' : List Stmt} (hs : List.Forall₂ (Stmt.Grouped Anywhere) ss ss') :
    UnitsAlike (runStatements run home ss w) (runStatements run' home ss' w') := by
  have hglobals : w'.globals home = w.globals home := by
    unfold World.globals
    rw [hw.interpreters]
  have hbody : Alike Eq (ss.forM (run ⟨home, w.globals home⟩))
      (ss'.forM (run' ⟨home, w.globals home⟩)) := .forM hs fun _ _ h => hrun _ h
  have hends := (hbody w w' hw).reported home
  unfold runStatements
  rw [hglobals]
  exact hends

theorem unitsAlike_execute {w w' : World} (hw : w.Grouped w') (home : Ref .interpreter)
    {u u' : CompiledUnit} (hfile : u'.file = u.file) (hconstants : u'.constants = u.constants)
    (hcount : u'.errorCount = u.errorCount)
    (hs : List.Forall₂ (Stmt.Grouped Anywhere) u.statements u'.statements) :
    UnitsAlike (execute run home u w) (execute run' home u' w') := by
  have hok : u'.ok = u.ok := by
    unfold CompiledUnit.ok
    rw [hcount]
  unfold execute
  rw [hok]
  by_cases h : u.ok = true
  · rw [if_pos h, if_pos h, hconstants, hfile]
    have hprepared := hw.updateInterpreter home
      fun i => { i with constants := u.constants, file := some u.file }
    exact unitsAlike_runStatements hrun hprepared home hs
  · rw [if_neg h, if_neg h, hcount, hfile]
    exact .ended _ (hw.log _)

/-- A module is prepared alike, unless its nesting goes beyond the limit. -/
theorem unitsAlike_module {w w' : World} (hw : w.Grouped w') {n m : Nat} (hle : m ≤ n)
    (home : Ref .interpreter) (file source : String) :
    UnitsAlike
      (execute run home (w.compile (2 * n) home file source).1
        (w.compile (2 * n) home file source).2)
      (execute run' home (w'.compile (2 * m) home file source).1
        (w'.compile (2 * m) home file source).2) := by
  have hrejected : Notice.TooDeep (w'.text (2 * m) home file source).notices →
      Ending.UnitShort (execute run' home (w'.compile (2 * m) home file source).1
        (w'.compile (2 * m) home file source).2) := by
    intro hdeep
    have hok : (w'.text (2 * m) home file source).unit.ok ≠ true := by
      intro hok
      obtain ⟨place, hplace⟩ := hdeep
      exact List.countP_eq_zero.mp (UnitText.notices_ok hok).2 _ hplace rfl
    unfold execute
    rw [if_neg (show ¬(w'.compile (2 * m) home file source).1.ok = true from hok)]
    exact UnitCutShort.rejected _ hdeep
  rcases CompiledUnit.ofSource_levels (Nat.mul_le_mul_left 2 hle) file source
    (w'.scopes.get (w'.interpreters.get home).globals).values.names
    (w'.interpreters.get home).constants with hdeep | hunit
  · exact .short _ (hrejected hdeep)
  · unfold World.compile
    dsimp only
    rw [hunit, hw.scopes, hw.interpreters]
    exact unitsAlike_execute hrun (hw.publishAll home _) home rfl rfl rfl (grouped_stmts _)

theorem alike_loadModule {n m : Nat} (hle : m ≤ n) (loader : Ref .loader) (token : Token)
    (name : String) (place : RealPath) (source : String) :
    Alike Eq (loadModule (2 * n) run loader token name place source)
      (loadModule (2 * m) run' loader token name place source) := by
  intro w w' hw
  have hnext : w'.interpreters.next = w.interpreters.next := congrArg _ hw.interpreters
  have hunits := unitsAlike_module hrun (hw.enroll name loader place) hle w.interpreters.next
    place.text source
  rw [loadModule_ending, loadModule_ending, hnext, hw.modules]
  exact hunits.loaded loader token name place w.modules.next

theorem alike_importModule {n m : Nat} (hle : m ≤ n) (home : Ref .interpreter) (token : Token) :
    Alike Eq (importModule (2 * n) run home token) (importModule (2 * m) run' home token) := by
  refine .looking fun w w' hw => ?_
  have hfound : w'.findModule home (importedModule token) =
      w.findModule home (importedModule token) := by
    cases hw
    rfl
  have hloaders : w'.loaders = w.loaders := by
    cases hw
    rfl
  dsimp only
  rw [hfound, hloaders, hw.interpreters]
  cases w.findModule home (importedModule token) with
  | nothing => exact alike_fail _ _
  | nameTooLong => exact alike_crash _
  | entry place e =>
      dsimp only
      cases (w.loaders.get (w.interpreters.get home).loader).cached? place with
      | some m => exact Alike.bind (R := Eq) (.modify fun _ _ hw => hw.log _) fun _ _ _ => .pure rfl
      | none =>
          refine (alike_readModule token _ e).bind fun source source' hsource => ?_
          subst hsource
          exact alike_loadModule hrun hle _ token _ place source

end Running

/-! ### Trees -/

/-- Trees with parentheses do the same, with the levels that the two runs have. -/
structure LevelAlike (patience n m : Nat) : Prop where
  expression : ∀ (site : Site) {e e' : Expr}, e.Grouped Anywhere e' →
    Alike Eq (expression patience n site e) (expression patience m site e')
  call : ∀ (callee : Value) (arguments : List Value),
    Alike Eq (call patience n callee arguments) (call patience m callee arguments)
  statement : AlikeRuns (statement patience n) (statement patience m)

namespace LevelAlike
variable {patience n m : Nat}

theorem optional (ih : LevelAlike patience n m) (site : Site) {e e' : Option Expr}
    (h : Option.Rel (Expr.Grouped Anywhere) e e') :
    Alike Eq (optional patience n site e) (optional patience m site e') := by
  cases h with
  | none => exact .pure rfl
  | some h => exact ih.expression site h

theorem advance (ih : LevelAlike patience n m) (site : Site) {e e' : Option Expr}
    (h : Option.Rel (Expr.Grouped Anywhere) e e') :
    Alike Eq (advance patience n site e) (advance patience m site e') := by
  cases h with
  | none => exact .pure rfl
  | some h => exact (ih.expression site h).bind fun _ _ _ => .pure rfl

/-- What stands in parentheses is evaluated at the level of the parentheses in the first tree, and a
level further down in the second one. -/
theorem expression_succ (ih : ∀ {n}, m ≤ n → LevelAlike patience n m) (hle : m ≤ n) (site : Site)
    {e e' : Expr} (h : e.Grouped Anywhere e') :
    Alike Eq (Eval.expression patience (n + 1) site e)
      (Eval.expression patience (m + 1) site e') := by
  have hm := ih hle
  cases h with
  | parens h => exact (ih (Nat.le_succ_of_le hle)).expression site h
  | literal value => exact .pure rfl
  | grouping h => exact hm.expression site h
  | name use | this use => exact alike_read site use
  | @assign use _ _ h =>
      unfold Eval.expression
      refine (hm.expression site h).bind fun v v' hv => ?_
      subst hv
      exact (alike_assign site use v).bind fun _ _ _ => .pure rfl
  | @unary _ token _ _ h =>
      unfold Eval.expression
      refine (hm.expression site h).bind fun v v' hv => ?_
      subst hv
      exact alike_ofOperator token _
  | @binary _ _ _ _ _ token ha hb =>
      unfold Eval.expression
      refine (hm.expression site ha).bind fun l l' hl => (hm.expression site hb).bind
        fun r r' hr => ?_
      subst hl hr
      exact alike_ofOperator token _
  | @logical _ _ _ _ op _ ha hb =>
      unfold Eval.expression
      refine (hm.expression site ha).bind fun v v' hv => ?_
      subst hv
      by_cases h : op.decides v = true
      · simp only [h, if_true]
        exact .pure rfl
      · simp only [h]
        exact hm.expression site hb
  | @call _ _ paren _ _ hcallee hes =>
      unfold Eval.expression
      refine (hm.expression site hcallee).bind fun f f' hf => ?_
      refine (Alike.mapM hes fun _ _ he => hm.expression site he).bind fun vs vs' hvs => ?_
      subst hf hvs
      exact (alike_checkCall f paren vs.length).bind fun _ _ _ w w' hw =>
        (hm.call f vs w w' hw).atCall paren
  | @get _ _ name h =>
      unfold Eval.expression
      refine (hm.expression site h).bind fun o o' ho => ?_
      subst ho
      exact alike_property o name
  | @set _ _ _ _ name _ ha hb =>
      unfold Eval.expression
      refine (hm.expression site ha).bind fun o o' ho => ?_
      subst ho
      refine (alike_checkFields o name).bind fun _ _ _ => (hm.expression site hb).bind
        fun v v' hv => ?_
      subst hv
      exact (alike_setProperty o name v).bind fun _ _ _ => .pure rfl
  | super use method => exact alike_superMethod site use method
  | lambda h => exact alike_newFunction (.mk h)

theorem statement_succ (ih : LevelAlike patience n m) (hle : m ≤ n) :
    AlikeRuns (Eval.statement patience (n + 1)) (Eval.statement patience (m + 1)) := by
  intro site s s' h
  cases h with
  | expression h => exact (ih.expression site h).bind fun _ _ _ => .pure rfl
  | print h =>
      refine (ih.expression site h).bind fun v v' hv => .modify fun w w' hw => ?_
      subst hv
      rw [hw.display]
      cases hw with
      | mk hf hc => exact .mk hf hc
  | var h =>
      rw [statement_var, statement_var]
      refine (ih.optional site h).bind fun v v' hv => ?_
      subst hv
      exact alike_define _ _ _
  | block h =>
      refine (alike_newScope site.scope).bind fun scope scope' hscope => ?_
      subst hscope
      exact .forM h fun _ _ hs => ih.statement _ hs
  | «if» hc hs ht =>
      unfold Eval.statement
      refine (ih.expression site hc).bind fun v v' hv => ?_
      subst hv
      by_cases h : v.truthy = true
      · simp only [h, if_true]
        exact ih.statement site hs
      · simp only [h]
        cases ht with
        | none => exact .pure rfl
        | some ht => exact ih.statement site ht
  | «while» hc hs he =>
      rw [statement_while, statement_while]
      have htest := (ih.expression site hc).map (S := Eq) (f := Value.truthy) (g := Value.truthy)
        fun _ _ hv => congrArg Value.truthy hv
      exact alike_loop htest (ih.statement site hs) (ih.advance site he) patience
  | «break» keyword => exact .throw _
  | «continue» keyword => exact .throw _
  | «return» h =>
      rw [statement_return, statement_return]
      refine (ih.optional site h).bind fun v v' hv => ?_
      subst hv
      exact .throw _
  | function h =>
      unfold Eval.statement
      dsimp only
      rw [h.displayName]
      refine (alike_newFunction (.mk h)).bind fun v v' hv => ?_
      subst hv
      exact alike_define _ _ _
  | @«class» name superclass _ _ h =>
      have hparent : Alike Eq (superclass.mapM (Eval.superclass site))
          (superclass.mapM (Eval.superclass site)) := by
        cases superclass with
        | none => exact .pure rfl
        | some use => exact (alike_superclass site use).map fun _ _ h => congrArg some h
      refine hparent.bind fun p p' hp => ?_
      subst hp
      exact alike_declareClass site name p h
  | importModule keyword name as =>
      refine (alike_importModule ih.statement hle site.home name).bind fun m m' hm => ?_
      subst hm
      exact alike_define _ _ _

end LevelAlike

/-- Trees with parentheses do the same with at most as many levels, by induction on these. -/
theorem levelAlike (patience : Nat) {n m : Nat} (h : m ≤ n) : LevelAlike patience n m := by
  induction m generalizing n with
  | zero =>
      constructor
      · exact fun _ _ _ _ => .overflow _
      · exact fun _ _ => .overflow _
      · exact fun _ _ _ _ => .overflow _
  | succ m ih =>
      cases n with
      | zero => exact absurd h (Nat.not_succ_le_zero m)
      | succ n =>
          have hle := Nat.le_of_succ_le_succ h
          constructor
          · exact fun site _ _ he => LevelAlike.expression_succ ih hle site he
          · exact fun callee vs => alike_callValue (ih hle).statement callee vs
          · exact (ih hle).statement_succ hle

end Eval
end Treewalk
