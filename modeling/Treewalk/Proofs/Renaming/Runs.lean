import Treewalk.Proofs.Renaming.Steps
import Treewalk.Proofs.Loops.Runs

/-!
# Runs with a local renamed

Code with the old name renamed does what the code without does, whatever it calls and imports.
-/
namespace Treewalk

namespace Renaming

/-- The same end of a unit, but for what the token of an error is called. -/
inductive Completions : Eval.Completion → Eval.Completion → Prop
  | same (completion : Eval.Completion) : Completions completion completion
  | failed (e : RuntimeError) (lexeme : String) :
      Completions (.failed e) (.failed { e with token := { e.token with lexeme := lexeme } })

namespace Chart
variable {ρ : Renaming} {Φ Ψ : Chart} {Γ : Context} {α β : Type}

/-! ### Taking interrupts -/

namespace Outcomes

theorem round {r r' : Ending Unit} (h : Outcomes ρ Φ Same r r') :
    Outcomes ρ Φ Same r.round r'.round := by
  cases h with
  | ok hΨ _ hw => exact .ok hΨ rfl hw
  | @error _ i _ _ _ hΨ hi hw =>
      cases hi with
      | same =>
          cases i with
          | signal c => cases c <;> first | exact .ok hΨ rfl hw | exact .error hΨ (.same _) hw
          | _ => exact .error hΨ (.same _) hw
      | error e lexeme => exact .error hΨ (.error e lexeme) hw
      | missing z z' => exact .error hΨ (.missing z z') hw

theorem returned {r r' : Ending Unit} (h : Outcomes ρ Φ Same r r') :
    Outcomes ρ Φ Same r.returned r'.returned := by
  cases h with
  | ok hΨ _ hw => exact .ok hΨ rfl hw
  | @error _ i _ _ _ hΨ hi hw =>
      cases hi with
      | same =>
          cases i with
          | signal c => cases c <;> first | exact .ok hΨ rfl hw | exact .error hΨ (.same _) hw
          | _ => exact .error hΨ (.same _) hw
      | error e lexeme => exact .error hΨ (.error e lexeme) hw
      | missing z z' => exact .error hΨ (.missing z z') hw

theorem atCall {R : Chart → α → β → Prop} {r : Ending α} {r' : Ending β}
    (h : Outcomes ρ Φ R r r') (paren : Token) :
    Outcomes ρ Φ R (r.atCall paren) (r'.atCall paren) := by
  cases h with
  | ok hΨ hab hw => exact .ok hΨ hab hw
  | @error _ i _ _ _ hΨ hi hw =>
      cases hi with
      | same => cases i <;> exact .error hΨ (.same _) hw
      | error e lexeme => exact .error hΨ (.error e lexeme) hw
      | missing z z' => exact .error hΨ (.missing z z') hw

/-- An error that ends a unit is reported alike. -/
theorem reported {r r' : Ending Unit} (h : Outcomes ρ Φ Same r r') (home : Ref .interpreter) :
    Outcomes ρ Φ (fun _ => Completions) (r.reported home) (r'.reported home) := by
  cases h with
  | ok hΨ _ hw => exact .ok hΨ (.same _) hw
  | @error _ i _ _ _ hΨ hi hw =>
      cases hi with
      | same =>
          cases i with
          | error e => exact .ok hΨ (.same _) (hw.reportRuntime home e e.token.lexeme)
          | _ => exact .error hΨ (.same _) hw
      | error e lexeme => exact .ok hΨ (.failed e lexeme) (hw.reportRuntime home e lexeme)
      | missing z z' => exact .error hΨ (.missing z z') hw

theorem loaded {r r' : Ending Eval.Completion}
    (h : Outcomes ρ Φ (fun _ => Completions) r r') (loader : Ref .loader) (token : Token)
    (name : String) (place : RealPath) (m : Ref .module) :
    Outcomes ρ Φ Same (r.loaded loader token name place m)
      (r'.loaded loader token name place m) := by
  cases h with
  | @ok _ completion _ _ _ hΨ hc hw =>
      have hforgotten := hw.updateLoader loader fun l => l.forget place
      cases hc with
      | same =>
          cases completion with
          | completed => exact .ok hΨ rfl hw
          | rejected => exact .error hΨ (.same _) hforgotten
          | failed e => exact .error hΨ (.same _) hforgotten
      | failed e lexeme => exact .error hΨ (.same _) hforgotten
  | error hΨ hi hw => exact .error hΨ hi hw

end Outcomes

theorem agree_loop {condition condition' : Eval Bool} {body body' increment increment' : Eval Unit}
    (hc : Agree ρ Φ Same condition condition') (hb : Agree ρ Φ Same body body')
    (hi : Agree ρ Φ Same increment increment') (patience : Nat) :
    Agree ρ Φ Same (Eval.loop condition body increment patience)
      (Eval.loop condition' body' increment' patience) := by
  have hround : Agree ρ Φ Same (Eval.round body) (Eval.round body') :=
    fun Ψ hΨ w w' hw => (hb Ψ hΨ w w' hw).round
  induction patience generalizing Φ with
  | zero => exact .throw (.same _)
  | succ patience ih =>
      refine hc.bind fun Ψ hΨ go go' hgo => ?_
      cases hgo
      cases go with
      | false => exact .pure fun _ _ => rfl
      | true =>
          refine (hround.mono hΨ).bind fun Θ hΘ go go' hgo => ?_
          cases hgo
          have hle := le_trans hΨ hΘ
          cases go with
          | false => exact .pure fun _ _ => rfl
          | true =>
              refine (hi.mono hle).bind fun Λ hΛ _ _ _ => ?_
              have hle := le_trans hle hΛ
              exact ih (hc.mono hle) (hb.mono hle) (hi.mono hle) (hround.mono hle)

/-! ### Calls -/

/-- Statements that do the same, the second ones with the old name renamed. -/
def Runs (ρ : Renaming) (run run' : Site → Stmt → Eval Unit) : Prop :=
  ∀ {Φ : Chart} {Γ : Context} {site : Site} {s s' : Stmt}, s.Renamed ρ Γ s' →
    Φ.Sees Γ.marks site.scope → Agree ρ Φ Same (run site s) (run' site s')

section Running
variable {run run' : Site → Stmt → Eval Unit} (hrun : Runs ρ run run')
include hrun

theorem agree_body {site : Site} {ss ss' : List Stmt}
    (h : List.Forall₂ (Stmt.Renamed ρ Γ) ss ss') (hsite : Φ.Sees Γ.marks site.scope) :
    Agree ρ Φ Same (ss.forM (run site)) (ss'.forM (run' site)) := by
  induction h generalizing Φ with
  | nil => exact .pure fun _ _ => rfl
  | cons hs _ ih => exact (hrun hs hsite).bind fun Ψ hΨ _ _ _ => ih (hsite.mono hΨ)

omit hrun in
/-- Arguments are bound to the parameters, whatever these are called. -/
theorem agree_parameters {r : Ref .scope} {renamed : Bool} (hr : Φ.mark r renamed)
    {parameters : List Token} (hfresh : ∀ p ∈ parameters, renamed = true → p.lexeme ≠ ρ.new)
    (arguments : List Value) :
    Agree ρ Φ Same
      ((parameters.zip arguments).forM fun pv => Eval.define r pv.1.lexeme pv.2)
      (((parameters.map (ρ.token renamed)).zip arguments).forM fun pv =>
        Eval.define r pv.1.lexeme pv.2) := by
  induction parameters generalizing Φ arguments with
  | nil => exact .pure fun _ _ => rfl
  | cons p parameters ih =>
      obtain ⟨hp, hparameters⟩ := List.forall_mem_cons.mp hfresh
      cases arguments with
      | nil => exact .pure fun _ _ => rfl
      | cons v arguments =>
          exact (agree_define hr hp v).bind fun Ψ hΨ _ _ _ =>
            ih (hΨ.mark hr) hparameters arguments

theorem agree_callFunction {f f' : Closure} (hf : Functions ρ Φ f f') (arguments : List Value) :
    Agree ρ Φ Same (Eval.callFunction run f arguments) (Eval.callFunction run' f' arguments) := by
  obtain ⟨declaration, outer, home, isInitializer⟩ := f
  cases hf with
  | @mk Γ _ hsees hd =>
      cases hd with
      | @mk _ renamed name parameters ss ss' _ hfresh hss =>
          refine (agree_newScope hsees renamed).bind fun Ψ hΨ r r' ⟨hsame, hr⟩ => ?_
          rw [hsame]
          have hmark : Ψ.mark r renamed := hr.here
          have hparameters := agree_parameters (ρ := ρ) hmark
            (fun p hp hrenamed => hfresh p hp ⟨_, List.mem_cons_self .., hrenamed⟩) arguments
          refine hparameters.bind fun Θ hΘ _ _ _ => ?_
          have hbody : Agree ρ Θ Same (ss.forM (run ⟨home, r⟩)) (ss'.forM (run' ⟨home, r⟩)) :=
            agree_body hrun hss.forall₂ (hr.mono hΘ)
          have hreturned : Agree ρ Θ Same (Eval.returned (ss.forM (run ⟨home, r⟩)))
              (Eval.returned (ss'.forM (run' ⟨home, r⟩))) :=
            fun Λ hΛ w w' hw => (hbody Λ hΛ w w' hw).returned
          refine hreturned.bind fun Λ hΛ v v' hv => ?_
          cases hv
          change Agree ρ Λ Same (if isInitializer then Eval.loadAt outer 0 "this" else pure v)
            (if isInitializer then Eval.loadAt outer 0 "this" else pure v)
          by_cases hi : isInitializer = true
          · rw [if_pos hi]
            exact agree_loadWord (((hsees.mono hΨ).mono hΘ).mono hΛ) 0 (by decide)
          · rw [if_neg hi]
            exact .pure fun _ _ => rfl

theorem agree_callValue (callee : Value) (arguments : List Value) :
    Agree ρ Φ Same (Eval.callValue run callee arguments)
      (Eval.callValue run' callee arguments) := by
  refine .looking fun Ψ hΨ w w' hw => ?_
  cases callee with
  | function r => exact agree_callFunction hrun (hw.functions.get r) arguments
  | «class» r =>
      refine (agree_newInstance r).bind fun Θ hΘ i i' hi => ?_
      cases hi
      rcases hw.method? r "init" with ⟨hm, hm'⟩ | ⟨f, f', hm, hm', hf⟩
      · simp only [hm, hm']
        exact .pure fun _ _ => rfl
      · simp only [hm, hm']
        refine (agree_bound (hf.mono hΘ) i).bind fun Λ _ g g' hg => ?_
        exact (agree_callFunction hrun hg arguments).bind fun _ _ _ _ _ => .pure fun _ _ => rfl
  | clock home =>
      cases hw
      exact .pure fun _ _ => rfl
  | _ => exact .pure fun _ _ => rfl

/-! ### Units and modules -/

section
variable {w w' : World} (hw : Worlds ρ Φ w w') (home : Ref .interpreter)
include hw

theorem runStatements_outcomes {ss ss' : List Stmt} (h : StmtsRenamed ρ {} ss ss') :
    Outcomes ρ Φ (fun _ => Completions) (Eval.runStatements run home ss w)
      (Eval.runStatements run' home ss' w') := by
  obtain ⟨hmark, hparent⟩ := hw.globals home
  have hsite : Φ.Sees (Context.marks {}) (Site.mk home (w.globals home)).scope :=
    .root hmark hparent
  have hends := (agree_body hrun h.forall₂ hsite Φ (le_refl Φ) w w' hw).reported home
  unfold Eval.runStatements
  rw [hw.globals_eq]
  exact hends

theorem execute_outcomes {u u' : CompiledUnit} (hfile : u'.file = u.file)
    (hconstants : u'.constants = u.constants) (hcount : u'.errorCount = u.errorCount)
    (hs : StmtsRenamed ρ {} u.statements u'.statements) :
    Outcomes ρ Φ (fun _ => Completions) (Eval.execute run home u w)
      (Eval.execute run' home u' w') := by
  have hok : u'.ok = u.ok := by
    unfold CompiledUnit.ok
    rw [hcount]
  unfold Eval.execute
  rw [hok]
  by_cases h : u.ok = true
  · rw [if_pos h, if_pos h, hconstants, hfile]
    have hprepared := hw.updateInterpreter home
      (f := fun i => { i with constants := u.constants, file := some u.file }) fun _ => rfl
    exact runStatements_outcomes hrun hprepared home hs
  · rw [if_neg h, if_neg h, hcount, hfile]
    exact .ok (le_refl Φ) (.same _) (hw.log _)

/-- A module is prepared alike: nothing is renamed in it. -/
theorem module_outcomes (levels : Nat) (file source : String) :
    Outcomes ρ Φ (fun _ => Completions)
      (Eval.execute run home (w.compile levels home file source).1
        (w.compile levels home file source).2)
      (Eval.execute run' home (w'.compile levels home file source).1
        (w'.compile levels home file source).2) := by
  have hknown : (w'.scopes.get (w'.interpreters.get home).globals).values =
      (w.scopes.get (w.interpreters.get home).globals).values := by
    rw [hw.interpreters]
    exact hw.scopes.same (hw.globals home).1
  unfold World.compile
  dsimp only
  rw [hknown, hw.interpreters]
  exact execute_outcomes hrun (hw.publishAll home _) home rfl rfl rfl
    (stmts_renamed_self Context.plain_start _)

end

theorem agree_loadModule (levels : Nat) (loader : Ref .loader) (token : Token) (name : String)
    (place : RealPath) (source : String) :
    Agree ρ Φ Same (Eval.loadModule levels run loader token name place source)
      (Eval.loadModule levels run' loader token name place source) := by
  intro Ψ hΨ w w' hw
  have hnext : w'.interpreters.next = w.interpreters.next := congrArg _ hw.interpreters
  obtain ⟨Θ, hΘ, henrolled⟩ := hw.enroll name loader place
  have hunits := module_outcomes hrun henrolled w.interpreters.next levels place.text source
  rw [Eval.loadModule_ending, Eval.loadModule_ending, hnext, hw.modules]
  exact (hunits.loaded loader token name place w.modules.next).le hΘ

theorem agree_importModule (levels : Nat) (home : Ref .interpreter) (token : Token) :
    Agree ρ Φ Same (Eval.importModule levels run home token)
      (Eval.importModule levels run' home token) := by
  refine .looking fun Ψ hΨ w w' hw => ?_
  have hfound : w'.findModule home (importedModule token) =
      w.findModule home (importedModule token) := by
    cases hw
    rfl
  have hloaders : w'.loaders = w.loaders := by
    cases hw
    rfl
  dsimp only
  rw [hfound, hloaders, hw.interpreters]
  cases w.findModule home (importedModule token) with
  | nothing => exact agree_fail _ _
  | nameTooLong => exact agree_crash _
  | entry place e =>
      dsimp only
      cases (w.loaders.get (w.interpreters.get home).loader).cached? place with
      | some m =>
          exact Agree.bind (R := Same) (.modify fun _ _ _ _ hw => hw.log _)
            fun _ _ _ _ _ => .pure fun _ _ => rfl
      | none =>
          refine (agree_readModule token _ e).bind fun Θ _ source source' hsource => ?_
          cases hsource
          exact agree_loadModule hrun levels _ token _ place source

end Running
/-! ### Trees -/

/-- Trees with the old name renamed do the same. -/
structure LevelAgrees (ρ : Renaming) (patience levels : Nat) : Prop where
  expression : ∀ {Φ : Chart} {Γ : Context} {site : Site} {e e' : Expr}, e.Renamed ρ Γ e' →
    Φ.Sees Γ.marks site.scope → Agree ρ Φ Same (Eval.expression patience levels site e)
      (Eval.expression patience levels site e')
  call : ∀ {Φ : Chart} (callee : Value) (arguments : List Value),
    Agree ρ Φ Same (Eval.call patience levels callee arguments)
      (Eval.call patience levels callee arguments)
  statement : Runs ρ (Eval.statement patience levels) (Eval.statement patience levels)

namespace LevelAgrees
variable {patience levels : Nat} (ih : LevelAgrees ρ patience levels) {site : Site}
include ih

theorem optional {e e' : Option Expr} (h : ExprsRenamed ρ Γ e.toList e'.toList)
    (hsite : Φ.Sees Γ.marks site.scope) :
    Agree ρ Φ Same (Eval.optional patience levels site e)
      (Eval.optional patience levels site e') := by
  cases h.option with
  | none => exact .pure fun _ _ => rfl
  | some he => exact ih.expression he hsite

theorem advance {e e' : Option Expr} (h : ExprsRenamed ρ Γ e.toList e'.toList)
    (hsite : Φ.Sees Γ.marks site.scope) :
    Agree ρ Φ Same (Eval.advance patience levels site e)
      (Eval.advance patience levels site e') := by
  cases h.option with
  | none => exact .pure fun _ _ => rfl
  | some he => exact (ih.expression he hsite).bind fun _ _ _ _ _ => .pure fun _ _ => rfl

theorem arguments {es es' : List Expr} (h : List.Forall₂ (Expr.Renamed ρ Γ) es es')
    (hsite : Φ.Sees Γ.marks site.scope) :
    Agree ρ Φ Same (es.mapM (Eval.expression patience levels site))
      (es'.mapM (Eval.expression patience levels site)) := by
  induction h generalizing Φ with
  | nil => exact .pure fun _ _ => rfl
  | cons he _ ihes =>
      rw [List.mapM_cons, List.mapM_cons]
      refine (ih.expression he hsite).bind fun Ψ hΨ v v' hv => ?_
      refine (ihes (hsite.mono hΨ)).bind fun _ _ vs vs' hvs => .pure fun _ _ => ?_
      cases hv
      cases hvs
      rfl

theorem expression_succ {e e' : Expr} (h : e.Renamed ρ Γ e')
    (hsite : Φ.Sees Γ.marks site.scope) :
    Agree ρ Φ Same (Eval.expression patience (levels + 1) site e)
      (Eval.expression patience (levels + 1) site e') := by
  cases h with
  | literal value => exact .pure fun _ _ => rfl
  | grouping h => exact ih.expression h hsite
  | name hz | this hz => exact agree_read hsite hz
  | @assign _ use _ _ hz h =>
      unfold Eval.expression
      refine (ih.expression h hsite).bind fun Ψ hΨ v v' hv => ?_
      cases hv
      exact (agree_assign (hsite.mono hΨ) hz v).bind fun _ _ _ _ _ => .pure fun _ _ => rfl
  | @unary _ _ token _ _ h =>
      unfold Eval.expression
      refine (ih.expression h hsite).bind fun Ψ _ v v' hv => ?_
      cases hv
      exact agree_ofOperator token _
  | @binary _ _ _ _ _ _ token ha hb =>
      unfold Eval.expression
      refine (ih.expression ha hsite).bind fun Ψ hΨ v v' hv =>
        (ih.expression hb (hsite.mono hΨ)).bind fun _ _ u u' hu => ?_
      cases hv
      cases hu
      exact agree_ofOperator token _
  | @logical _ _ _ _ _ op _ ha hb =>
      unfold Eval.expression
      refine (ih.expression ha hsite).bind fun Ψ hΨ v v' hv => ?_
      cases hv
      by_cases h : op.decides v = true
      · simp only [h, if_true]
        exact .pure fun _ _ => rfl
      · simp only [h]
        exact ih.expression hb (hsite.mono hΨ)
  | @call _ _ _ paren _ _ hcallee hes =>
      unfold Eval.expression
      refine (ih.expression hcallee hsite).bind fun Ψ hΨ f f' hf => ?_
      refine (ih.arguments hes.forall₂ (hsite.mono hΨ)).bind fun Θ _ vs vs' hvs => ?_
      cases hf
      cases hvs
      exact (agree_checkCall f paren vs.length).bind fun _ _ _ _ _ Λ hΛ w w' hw =>
        (ih.call f vs Λ hΛ w w' hw).atCall paren
  | @get _ _ _ name h =>
      unfold Eval.expression
      refine (ih.expression h hsite).bind fun Ψ _ o o' ho => ?_
      cases ho
      exact agree_property o name
  | @set _ _ _ _ _ name _ ha hb =>
      unfold Eval.expression
      refine (ih.expression ha hsite).bind fun Ψ hΨ o o' ho => ?_
      cases ho
      refine (agree_checkFields o name).bind fun Θ hΘ _ _ _ => ?_
      refine (ih.expression hb ((hsite.mono hΨ).mono hΘ)).bind fun _ _ v v' hv => ?_
      cases hv
      exact (agree_setProperty o name v).bind fun _ _ _ _ _ => .pure fun _ _ => rfl
  | super hz => exact agree_superMethod hsite _ _
  | lambda hd => exact agree_newFunction (.mk hsite hd)

theorem statement_succ :
    Runs ρ (Eval.statement patience (levels + 1)) (Eval.statement patience (levels + 1)) := by
  intro Φ Γ site s s' h hsite
  cases h with
  | expression h => exact (ih.expression h hsite).bind fun _ _ _ _ _ => .pure fun _ _ => rfl
  | print h =>
      refine (ih.expression h hsite).bind fun Ψ _ v v' hv => .modify fun Θ _ w w' hw => ?_
      cases hv
      rw [hw.display, hw.console]
      exact hw.writing _
  | @var _ _ name _ _ hz h =>
      rw [Eval.statement_var, Eval.statement_var]
      refine (ih.optional h (hsite.initial name.lexeme)).bind fun Ψ hΨ v v' hv => ?_
      cases hv
      exact agree_define (hsite.mono hΨ).here (fun hhere => hz (marked_of_renames hhere)) v
  | block renamed _ h =>
      refine (agree_newScope hsite renamed).bind fun Ψ _ r r' ⟨hsame, hr⟩ => ?_
      rw [hsame]
      exact agree_body ih.statement h.forall₂ hr
  | @«if» _ _ _ _ _ t t' hc hs ht =>
      unfold Eval.statement
      refine (ih.expression hc hsite).bind fun Ψ hΨ v v' hv => ?_
      cases hv
      by_cases h : v.truthy = true
      · simp only [h, if_true]
        exact ih.statement hs (hsite.mono hΨ)
      · simp only [h]
        cases ht.option with
        | none => exact .pure fun _ _ => rfl
        | some hst => exact ih.statement hst (hsite.mono hΨ)
  | «while» hc hs he =>
      rw [Eval.statement_while, Eval.statement_while]
      exact agree_loop ((ih.expression hc hsite).map Value.truthy) (ih.statement hs hsite)
        (ih.advance he hsite) patience
  | «break» keyword => exact .throw (.same _)
  | «continue» keyword => exact .throw (.same _)
  | «return» h =>
      rw [Eval.statement_return, Eval.statement_return]
      refine (ih.optional h hsite).bind fun Ψ _ v v' hv => ?_
      cases hv
      exact .throw (.same _)
  | function hkeeps hd =>
      unfold Eval.statement
      dsimp only
      rw [hd.displayName]
      refine (agree_newFunction (.mk hsite hd)).bind fun Ψ hΨ v v' hv => ?_
      cases hv
      exact agree_bindName (hsite.mono hΨ) hkeeps v
  | root hkeeps hds =>
      refine Agree.bind (R := fun _ p p' => p = none ∧ p' = none) (.pure fun _ _ => ⟨rfl, rfl⟩) ?_
      rintro Ψ hΨ _ _ ⟨rfl, rfl⟩
      exact agree_declareRoot (hsite.mono hΨ) hkeeps hds
  | derived hkeeps hz hds =>
      refine Agree.bind (R := fun _ p p' => ∃ c, p = some c ∧ p' = some c)
        ((agree_superclass hsite hz).bind fun _ _ c c' hc => .pure fun _ _ => ⟨c, rfl, ?_⟩) ?_
      · exact congrArg some (Eq.symm hc)
      · rintro Ψ hΨ _ _ ⟨c, rfl, rfl⟩
        exact agree_declareDerived (hsite.mono hΨ) hkeeps c hds
  | importModule hkeeps =>
      refine (agree_importModule ih.statement _ site.home _).bind fun Ψ hΨ m m' hm => ?_
      cases hm
      exact agree_bindName (hsite.mono hΨ) hkeeps _

end LevelAgrees

/-- Trees with the old name renamed do the same, by induction on the levels. -/
theorem levelAgrees (ρ : Renaming) (patience levels : Nat) : LevelAgrees ρ patience levels := by
  induction levels with
  | zero =>
      constructor
      · exact fun _ _ => .throw (.same _)
      · exact fun _ _ => .throw (.same _)
      · exact fun _ _ => .throw (.same _)
  | succ levels ih =>
      constructor
      · exact ih.expression_succ
      · exact fun callee arguments => agree_callValue ih.statement callee arguments
      · exact ih.statement_succ

end Chart
end Renaming
end Treewalk
