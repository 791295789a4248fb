import Treewalk.Proofs.Control.Imports

/-!
# What errors name

The token of a runtime error is one of the node at which it is raised. An import raises its own error
at its name, whatever ended the unit of the module.
-/
namespace Treewalk
namespace Eval
variable {α β : Type} {ts : List Token} {p : Eval α}

/-- A runtime error that ends the evaluation names one of the tokens. -/
def Blames (ts : List Token) (p : Eval α) : Prop :=
  ∀ w e w', p w = .error (.error e) w' → e.token ∈ ts

namespace Blames

theorem pure (a : α) : Blames ts (Pure.pure a : Eval α) := fun _ _ _ h => nomatch h

theorem crash (c : Crash) : Blames ts (Eval.crash c : Eval α) := fun _ _ _ h => nomatch h

theorem fail {token : Token} (h : token ∈ ts) (cause : RuntimeCause) :
    Blames ts (Eval.fail token cause : Eval α) := by
  rintro w e w' ⟨⟩
  exact h

theorem bind {f : α → Eval β} (hp : Blames ts p) (hf : ∀ a, Blames ts (f a)) :
    Blames ts (p >>= f) := by
  intro w e w' h
  rw [bind_run] at h
  cases hr : p w with
  | ok a v =>
      rw [hr] at h
      exact hf a v e w' h
  | error i v =>
      rw [hr] at h
      cases h
      exact hp w e w' hr

theorem getting {f : World → Eval α} (h : ∀ w, Blames ts (f w)) : Blames ts (get >>= f) :=
  fun w => h w w

theorem modifying (f : World → α × World) : Blames ts (modifyGet f : Eval α) :=
  fun _ _ _ h => nomatch h

theorem setting (w : World) : Blames ts (set w : Eval PUnit) := fun _ _ _ h => nomatch h

end Blames

section
variable {token : Token}

theorem blames_ofOperator (h : token ∈ ts) (r : Except OperatorFailure Value) :
    Blames ts (ofOperator token r) := by
  cases r with
  | ok v => exact .pure v
  | error failure =>
      cases failure with
      | error cause => exact .fail h cause
      | crash c => exact .crash c

/-! ### Scopes -/

theorem blames_newScope (parent : Ref .scope) : Blames ts (newScope parent) := .modifying _

theorem blames_define (scope : Ref .scope) (name : String) (v : Value) :
    Blames ts (define scope name v) := .modifying _

theorem blames_ancestor (scope : Ref .scope) (hops : Nat) : Blames ts (ancestor scope hops) := by
  refine .getting fun w => ?_
  cases w.scopes.ancestor? hops scope with
  | some r => exact .pure r
  | none => exact .crash _

theorem blames_loadAt (scope : Ref .scope) (hops : Nat) (name : String) :
    Blames ts (loadAt scope hops name) := by
  refine .bind (blames_ancestor scope hops) fun r => .getting fun w => ?_
  cases w.scopes.find? r name with
  | some v => exact .pure v
  | none => exact .crash _

theorem blames_read (site : Site) {use : NameUse} (h : use.name ∈ ts) :
    Blames ts (read site use) := by
  unfold read
  cases use.hops with
  | some hops => exact blames_loadAt site.scope hops use.name.lexeme
  | none =>
      refine .getting fun w => ?_
      cases w.scopes.load? (w.globals site.home) use.name.lexeme with
      | some v => exact .pure v
      | none => exact .fail h _

theorem blames_assign (site : Site) {use : NameUse} (h : use.name ∈ ts) (v : Value) :
    Blames ts (assign site use v) := by
  unfold assign
  cases use.hops with
  | some hops => exact .bind (blames_ancestor site.scope hops) fun r => blames_define r _ v
  | none =>
      refine .getting fun w => ?_
      cases w.scopes.store? (w.globals site.home) use.name.lexeme v with
      | some scopes => exact .setting _
      | none => exact .fail h _

/-! ### Objects -/

theorem blames_newFunction (f : Closure) : Blames ts (newFunction f) := .modifying _

theorem blames_bound (f : Closure) (receiver : Ref .instance) : Blames ts (bound f receiver) :=
  .bind (blames_newScope f.scope) fun scope =>
    .bind (blames_define scope "this" (.instance receiver)) fun _ => .pure _

theorem blames_method (f : Closure) (receiver : Ref .instance) :
    Blames ts (bound f receiver >>= newFunction) :=
  .bind (blames_bound f receiver) blames_newFunction

theorem blames_property (object : Value) (h : token ∈ ts) : Blames ts (property object token) := by
  refine .getting fun w => ?_
  cases object with
  | «instance» r =>
      dsimp only
      cases (w.instances.get r).fields.find? token.lexeme with
      | some v => exact .pure v
      | none =>
          dsimp only
          cases w.method? (w.instances.get r).classRef token.lexeme with
          | some f => exact blames_method f r
          | none => exact .fail h _
  | module r =>
      dsimp only
      cases w.scopes.find? (w.globals (w.modules.get r).home) token.lexeme with
      | some v => exact .pure v
      | none => exact .fail h _
  | _ => exact .fail h _

theorem blames_checkFields (object : Value) (h : token ∈ ts) :
    Blames ts (checkFields object token) := by
  cases object with
  | «instance» | module => exact .pure ()
  | _ => exact .fail h _

theorem blames_setProperty (object : Value) (h : token ∈ ts) (v : Value) :
    Blames ts (setProperty object token v) := by
  refine .getting fun w => ?_
  cases object with
  | «instance» r => exact .setting _
  | module r =>
      dsimp only
      by_cases hc : w.scopes.contains (w.globals (w.modules.get r).home) token.lexeme = true
      · rw [if_pos hc]
        exact blames_define _ _ v
      · rw [if_neg hc]
        exact .fail h _
  | _ => exact .fail h _

theorem blames_superMethod (site : Site) (use : NameUse) (h : token ∈ ts) :
    Blames ts (superMethod site use token) := by
  unfold superMethod
  cases use.hops with
  | none => exact .crash _
  | some hops =>
      refine .bind (blames_loadAt _ _ _) fun superclass =>
        .bind (blames_loadAt _ _ _) fun receiver => ?_
      cases superclass with
      | «class» c =>
          cases receiver with
          | «instance» i =>
              refine .getting fun w => ?_
              cases w.method? c token.lexeme with
              | some f => exact blames_method f i
              | none => exact .fail h _
          | _ => exact .crash _
      | _ => exact .crash _

theorem blames_superclass (site : Site) {use : NameUse} (h : use.name ∈ ts) :
    Blames ts (superclass site use) := by
  refine .bind (blames_read site h) fun v => ?_
  cases v with
  | «class» r => exact .pure r
  | _ => exact .fail h _

theorem blames_declareClass (site : Site) (name : Token) (parent : Option (Ref .class))
    (methods : List FunctionDecl) : Blames ts (declareClass site name parent methods) := by
  have hmade : ∀ c, Blames ts (newClass c >>= fun v => define site.scope name.lexeme v) :=
    fun _ => .bind (.modifying _) fun v => blames_define _ _ v
  refine .bind (blames_define _ _ _) fun _ => ?_
  cases parent with
  | none => exact .bind (.pure _) fun _ => hmade _
  | some c =>
      exact .bind (blames_newScope _) fun _ => .bind (blames_define _ _ _) fun _ =>
        .bind (.pure _) fun _ => hmade _

theorem blames_checkCall (callee : Value) (h : token ∈ ts) (found : Nat) :
    Blames ts (checkCall callee token found) := by
  refine .getting fun w => ?_
  cases w.arity? callee with
  | none => exact .fail h _
  | some expected =>
      dsimp only
      by_cases hne : found ≠ expected
      · rw [if_pos hne]
        exact .fail h _
      · rw [if_neg hne]
        exact .pure ()

/-! ### Modules -/

theorem blames_readModule (h : token ∈ ts) (name : String) (e : FileEntry) :
    Blames ts (readModule token name e) := by
  cases e with
  | file bytes =>
      unfold readModule
      dsimp only
      cases Text.decode? bytes with
      | some s => exact .pure s
      | none => exact .crash _
  | unreadable reason => exact .fail h _
  | directory => exact .fail h _

/-- Whatever runs the statements of a module, an import that fails is blamed on its name. -/
theorem blames_importModule (levels : Nat) (run : Site → Stmt → Eval Unit)
    (home : Ref .interpreter) (h : token ∈ ts) :
    Blames ts (importModule levels run home token) := by
  have hforget : ∀ (loader : Ref .loader) (place : RealPath) (cause : RuntimeCause),
      Blames ts (modify (fun w : World => w.updateLoader loader fun l => l.forget place) >>=
        fun _ => (fail token cause : Eval (Ref .module))) :=
    fun _ _ cause => .bind (.modifying _) fun _ => .fail h cause
  refine .getting fun w => ?_
  dsimp only
  cases w.findModule home (importedModule token) with
  | nothing => exact .fail h _
  | nameTooLong => exact .crash _
  | entry place e =>
      dsimp only
      cases (w.loaders.get (w.interpreters.get home).loader).cached? place with
      | some m => exact .bind (.modifying _) fun _ => .pure m
      | none =>
          refine .bind (blames_readModule h _ e) fun source => .getting fun w => ?_
          refine .bind (.setting _) fun _ => .bind (fun v e v' hr => ?_) fun completion => ?_
          · exact (execute_ne_error run _ e hr).elim
          · cases completion with
            | completed => exact .pure _
            | rejected => exact hforget _ _ _
            | failed _ => exact hforget _ _ _

end
end Eval
end Treewalk
