import Treewalk.Proofs.Control.Legal
import Treewalk.Proofs.Run.Calls

/-!
# Quiet steps

What evaluation does without running a body raises no signal, and makes functions and classes only of
declarations it was given.
-/
namespace Treewalk

/-- The bodies of all functions and methods are legal. -/
structure World.Lawful (w : World) : Prop where
  functions : ∀ r, (w.functions.get r).declaration.Legal
  methods : ∀ c name f, (w.classes.get c).methods.find? name = some f → f.declaration.Legal

namespace World.Lawful
variable {w w' : World}

theorem of_eq (h : w.Lawful) (hf : w'.functions = w.functions) (hc : w'.classes = w.classes) :
    w'.Lawful :=
  ⟨fun r => by rw [hf]; exact h.functions r, fun c name f hm => by
    rw [hc] at hm
    exact h.methods c name f hm⟩

theorem alike (h : w.Lawful) (ha : w.Alike w') : w'.Lawful :=
  h.of_eq (ha 0).functions (ha 0).classes

theorem addInterpreter (h : w.Lawful) (unit : String) (loader : Ref .loader) :
    (w.addInterpreter unit loader).Lawful := by
  unfold World.addInterpreter
  split <;> exact h.of_eq rfl rfl

theorem newFunction (h : w.Lawful) {f : Closure} (hf : f.declaration.Legal) :
    ({ w with functions := w.functions.add f } : World).Lawful := by
  refine ⟨fun r => ?_, h.methods⟩
  change ((w.functions.add f).get r).declaration.Legal
  rw [Arena.get_add]
  by_cases hr : r = w.functions.next
  · rw [if_pos hr]
    exact hf
  · rw [if_neg hr]
    exact h.functions r

theorem newClass (h : w.Lawful) {c : ClassObject}
    (hc : ∀ name f, c.methods.find? name = some f → f.declaration.Legal) :
    ({ w with classes := w.classes.add c } : World).Lawful := by
  refine ⟨h.functions, fun r name f hm => ?_⟩
  change ((w.classes.add c).get r).methods.find? name = some f at hm
  rw [Arena.get_add] at hm
  by_cases hr : r = w.classes.next
  · rw [if_pos hr] at hm
    exact hc name f hm
  · rw [if_neg hr] at hm
    exact h.methods r name f hm

/-- A method that is found is the method of some class. -/
theorem method (h : w.Lawful) {c : Ref .class} {name : String} {f : Closure}
    (hf : w.method? c name = some f) : f.declaration.Legal := by
  obtain ⟨c', hc'⟩ := World.method?_some hf
  exact h.methods c' name f hc'

end World.Lawful

namespace Eval
variable {α β : Type}

/-- No signal is raised, the world stays lawful, and something holds of the result. -/
def Quiet (p : Eval α) (Q : α → Prop) : Prop := ∀ w : World, w.Lawful →
  match p w with
  | .ok a w' => w'.Lawful ∧ Q a
  | .error i w' => w'.Lawful ∧ ∀ s, i ≠ .signal s

namespace Quiet
variable {Q : α → Prop}

theorem pure {a : α} (h : Q a) : Quiet (Pure.pure a) Q := fun _ hw => ⟨hw, h⟩

theorem bind {p : Eval β} {R : β → Prop} {f : β → Eval α} (hp : Quiet p R)
    (hf : ∀ b, R b → Quiet (f b) Q) : Quiet (p >>= f) Q := by
  intro w hw
  have hpw := hp w hw
  rw [Eval.bind_run]
  cases hr : p w with
  | ok b t =>
      rw [hr] at hpw
      exact hf b hpw.2 t hpw.1
  | error i t =>
      rw [hr] at hpw
      exact hpw

theorem fail (token : Token) (cause : RuntimeCause) : Quiet (Eval.fail token cause) Q :=
  fun _ hw => ⟨hw, fun _ h => nomatch h⟩

theorem crash (c : Crash) : Quiet (Eval.crash c) Q := fun _ hw => ⟨hw, fun _ h => nomatch h⟩

/-- What depends on the world. -/
theorem getting {f : World → Eval α} (h : ∀ w : World, w.Lawful → Quiet (f w) Q) :
    Quiet (get >>= f) Q := fun w hw => h w hw w hw

theorem modifying {f : World → α × World} (h : ∀ w : World, w.Lawful → (f w).2.Lawful ∧ Q (f w).1) :
    Quiet (modifyGet f) Q := fun w hw => h w hw

/-- What leaves functions and classes as they are. -/
theorem modify {f : World → World} (hf : ∀ w, (f w).functions = w.functions)
    (hc : ∀ w, (f w).classes = w.classes) : Quiet (modify f) fun _ => True :=
  fun w hw => ⟨hw.of_eq (hf w) (hc w), trivial⟩

end Quiet

theorem quiet_newScope (parent : Ref .scope) : Quiet (newScope parent) fun _ => True :=
  .modifying fun _ hw => ⟨hw.of_eq rfl rfl, trivial⟩

theorem quiet_define (scope : Ref .scope) (name : String) (v : Value) :
    Quiet (define scope name v) fun _ => True := .modify (fun _ => rfl) fun _ => rfl

theorem quiet_ancestor (scope : Ref .scope) (hops : Nat) :
    Quiet (ancestor scope hops) fun _ => True := by
  refine .getting fun w _ => ?_
  cases w.scopes.ancestor? hops scope with
  | some r => exact .pure trivial
  | none => exact .crash _

theorem quiet_loadAt (scope : Ref .scope) (hops : Nat) (name : String) :
    Quiet (loadAt scope hops name) fun _ => True := by
  refine .bind (quiet_ancestor scope hops) fun r _ => .getting fun w _ => ?_
  cases w.scopes.find? r name with
  | some v => exact .pure trivial
  | none => exact .crash _

theorem quiet_read (site : Site) (use : NameUse) : Quiet (read site use) fun _ => True := by
  unfold read
  cases use.hops with
  | some hops => exact quiet_loadAt site.scope hops use.name.lexeme
  | none =>
      refine .getting fun w _ => ?_
      cases w.scopes.load? (w.globals site.home) use.name.lexeme with
      | some v => exact .pure trivial
      | none => exact .fail _ _

theorem quiet_assign (site : Site) (use : NameUse) (v : Value) :
    Quiet (assign site use v) fun _ => True := by
  unfold assign
  cases use.hops with
  | some hops => exact .bind (quiet_ancestor site.scope hops) fun r _ => quiet_define r _ v
  | none =>
      refine .getting fun w hw => ?_
      cases w.scopes.store? (w.globals site.home) use.name.lexeme v with
      | some scopes => exact fun _ _ => ⟨hw.of_eq rfl rfl, trivial⟩
      | none => exact .fail _ _

theorem quiet_ofOperator (token : Token) (r : Except OperatorFailure Value) :
    Quiet (ofOperator token r) fun _ => True := by
  cases r with
  | ok v => exact .pure trivial
  | error e =>
      cases e with
      | error cause => exact .fail _ _
      | crash c => exact .crash _

theorem quiet_checkCall (callee : Value) (paren : Token) (found : Nat) :
    Quiet (checkCall callee paren found) fun _ => True := by
  refine .getting fun w _ => ?_
  cases w.arity? callee with
  | none => exact .fail _ _
  | some expected =>
      by_cases h : found ≠ expected
      · simp only [h, ne_eq, not_false_eq_true, if_true]
        exact .fail _ _
      · simp only [h, if_false]
        exact .pure trivial

theorem quiet_checkFields (object : Value) (name : Token) :
    Quiet (checkFields object name) fun _ => True := by
  cases object with
  | «instance» r => exact .pure trivial
  | module r => exact .pure trivial
  | _ => exact .fail _ _

theorem quiet_setProperty (object : Value) (name : Token) (v : Value) :
    Quiet (setProperty object name v) fun _ => True := by
  refine .getting fun w hw => ?_
  cases object with
  | «instance» r => exact fun _ _ => ⟨hw.of_eq rfl rfl, trivial⟩
  | module r =>
      by_cases hc : w.scopes.contains (w.globals (w.modules.get r).home) name.lexeme = true
      · simp only [hc, if_true]
        exact quiet_define _ _ v
      · simp only [hc]
        exact .fail _ _
  | _ => exact .fail _ _

theorem quiet_newFunction {f : Closure} (hf : f.declaration.Legal) :
    Quiet (newFunction f) fun _ => True :=
  .modifying fun _ hw => ⟨hw.newFunction hf, trivial⟩

theorem quiet_newInstance (c : Ref .class) : Quiet (newInstance c) fun _ => True :=
  .modifying fun _ hw => ⟨hw.of_eq rfl rfl, trivial⟩

theorem quiet_bound {f : Closure} (hf : f.declaration.Legal) (receiver : Ref .instance) :
    Quiet (bound f receiver) fun g => g.declaration.Legal :=
  .bind (quiet_newScope f.scope) fun scope _ =>
    .bind (quiet_define scope "this" (.instance receiver)) fun _ _ => .pure hf

theorem quiet_property (object : Value) (name : Token) :
    Quiet (property object name) fun _ => True := by
  refine .getting fun w hw => ?_
  cases object with
  | «instance» r =>
      cases hfield : (w.instances.get r).fields.find? name.lexeme with
      | some v =>
          simp only [hfield]
          exact .pure trivial
      | none =>
          cases hm : w.method? (w.instances.get r).classRef name.lexeme with
          | some f =>
              simp only [hfield, hm]
              exact .bind (quiet_bound (hw.method hm) r) fun _ hg => quiet_newFunction hg
          | none =>
              simp only [hfield, hm]
              exact .fail _ _
  | module r =>
      cases hv : w.scopes.find? (w.globals (w.modules.get r).home) name.lexeme with
      | some v =>
          simp only [hv]
          exact .pure trivial
      | none =>
          simp only [hv]
          exact .fail _ _
  | _ => exact .fail _ _

theorem quiet_superMethod (site : Site) (use : NameUse) (method : Token) :
    Quiet (superMethod site use method) fun _ => True := by
  unfold superMethod
  cases use.hops with
  | none => exact .crash _
  | some hops =>
      refine .bind (quiet_loadAt _ _ _) fun superclass _ => .bind (quiet_loadAt _ _ _) fun receiver _ => ?_
      cases superclass with
      | «class» c =>
          cases receiver with
          | «instance» i =>
              refine .getting fun w hw => ?_
              cases hm : w.method? c method.lexeme with
              | some f => exact .bind (quiet_bound (hw.method hm) i) fun _ hg => quiet_newFunction hg
              | none => exact .fail _ _
          | _ => exact .crash _
      | _ => exact .crash _

theorem quiet_superclass (site : Site) (use : NameUse) :
    Quiet (superclass site use) fun _ => True := by
  refine .bind (quiet_read site use) fun v _ => ?_
  cases v with
  | «class» r => exact .pure trivial
  | _ => exact .fail _ _

theorem quiet_declareClass (site : Site) (name : Token) (parent : Option (Ref .class))
    {methods : List FunctionDecl} (h : ∀ f ∈ methods, f.Legal) :
    Quiet (declareClass site name parent methods) fun _ => True := by
  have hclass : ∀ scope : Ref .scope, Quiet (newClass ⟨name.lexeme, parent, methods.foldl
      (fun ms d => ms.insert d.displayName ⟨d, scope, site.home, d.displayName == "init"⟩) {}⟩)
      fun _ => True := fun scope => .modifying fun w hw => by
    refine ⟨hw.newClass fun x f hf => ?_, trivial⟩
    rcases find?_methods (fun d => ⟨d, scope, site.home, d.displayName == "init"⟩) hf with
      hf | ⟨d, hd, -, rfl⟩
    · cases hf
    · exact h d hd
  refine .bind (quiet_define _ _ _) fun _ _ => ?_
  cases parent with
  | none =>
      exact .bind (R := fun _ => True) (.pure trivial) fun scope _ => .bind (hclass scope) fun c _ =>
        quiet_define _ _ c
  | some c =>
      exact .bind (quiet_newScope _) fun scope _ => .bind (quiet_define _ _ _) fun _ _ =>
        .bind (R := fun _ => True) (.pure trivial) fun scope _ => .bind (hclass scope) fun c _ =>
          quiet_define _ _ c

theorem quiet_readModule (token : Token) (name : String) (e : FileEntry) :
    Quiet (readModule token name e) fun _ => True := by
  cases e with
  | file bytes =>
      unfold readModule
      cases h : Text.decode? bytes with
      | some s =>
          simp only [h]
          exact .pure trivial
      | none =>
          simp only [h]
          exact .crash _
  | unreadable reason => exact .fail _ _
  | directory => exact .fail _ _

end Eval
end Treewalk
