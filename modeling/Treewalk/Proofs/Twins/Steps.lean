import Treewalk.Proofs.Twins.Worlds
import Treewalk.Proofs.Run.Objects

/-!
# Twin steps

A step of evaluation in one of two worlds and the same step in the other one have the same result,
and leave twin worlds.
-/
namespace Treewalk

namespace Likeness

/-- The same interrupt, but that an error may be some lines further down. -/
inductive Interrupts (d : Likeness) : Interrupt → Interrupt → Prop
  | same (i : Interrupt) : d.Interrupts i i
  | down {n : Nat} (token : Token) (cause : RuntimeCause) : d.moved n →
      d.Interrupts (.error ⟨token, cause⟩) (.error ⟨token.down n, cause⟩)

/-- Related outcomes. -/
inductive Outcomes (d : Likeness) {α β : Type} (R : α → β → Prop) :
    EStateM.Result Interrupt World α → EStateM.Result Interrupt World β → Prop
  | ok {a : α} {b : β} {w w' : World} : R a b → d.Twins w w' → d.Outcomes R (.ok a w) (.ok b w')
  | error {i i' : Interrupt} {w w' : World} : d.Interrupts i i' → d.Twins w w' →
      d.Outcomes R (.error i w) (.error i' w')

/-- Computations that do the same in twin worlds. -/
def Agree (d : Likeness) {α β : Type} (R : α → β → Prop) (p : Eval α) (q : Eval β) : Prop :=
  ∀ w w', d.Twins w w' → d.Outcomes R (p w) (q w')

variable {d : Likeness} {α β γ δ : Type}

namespace Agree
variable {R : α → β → Prop} {S : γ → δ → Prop}

theorem pure {a : α} {b : β} (h : R a b) :
    d.Agree R (Pure.pure a : Eval α) (Pure.pure b : Eval β) := fun _ _ hw => .ok h hw

theorem throw {i i' : Interrupt} (h : d.Interrupts i i') :
    d.Agree R (MonadExcept.throw i : Eval α) (MonadExcept.throw i' : Eval β) :=
  fun _ _ hw => .error h hw

theorem bind {p : Eval α} {q : Eval β} {f : α → Eval γ} {g : β → Eval δ} (hp : d.Agree R p q)
    (hf : ∀ a b, R a b → d.Agree S (f a) (g b)) : d.Agree S (p >>= f) (q >>= g) := by
  intro w w' hw
  have hpq := hp w w' hw
  rw [Eval.bind_run, Eval.bind_run]
  generalize p w = r at hpq
  generalize q w' = r' at hpq
  cases hpq with
  | ok hab ht => exact hf _ _ hab _ _ ht
  | error hi ht => exact .error hi ht

theorem map {p : Eval α} {q : Eval β} {f : α → γ} {g : β → δ} (h : d.Agree R p q)
    (hf : ∀ a b, R a b → S (f a) (g b)) : d.Agree S (f <$> p) (g <$> q) :=
  h.bind fun a b hab => .pure (hf a b hab)

/-- What depends on the world. -/
theorem getting {f : World → Eval α} {g : World → Eval β}
    (h : ∀ w w', d.Twins w w' → d.Outcomes R (f w w) (g w' w')) :
    d.Agree R (get >>= f) (get >>= g) := h

/-- What depends on the world, but in the same way. -/
theorem looking {f : World → Eval α} {g : World → Eval β}
    (h : ∀ w w', d.Twins w w' → d.Agree R (f w) (g w')) :
    d.Agree R (get >>= f) (get >>= g) := fun w w' hw => h w w' hw w w' hw

theorem modifying {f : World → α × World} {g : World → β × World}
    (h : ∀ w w', d.Twins w w' → R (f w).1 (g w').1 ∧ d.Twins (f w).2 (g w').2) :
    d.Agree R (modifyGet f : Eval α) (modifyGet g : Eval β) :=
  fun w w' hw => .ok (h w w' hw).1 (h w w' hw).2

theorem modify {f g : World → World} (h : ∀ w w', d.Twins w w' → d.Twins (f w) (g w')) :
    d.Agree Eq (modify f : Eval Unit) (modify g : Eval Unit) :=
  fun w w' hw => .ok rfl (h w w' hw)

theorem forM {f : α → Eval Unit} {g : β → Eval Unit} {as : List α} {bs : List β}
    (has : List.Forall₂ R as bs) (h : ∀ a b, R a b → d.Agree Eq (f a) (g b)) :
    d.Agree Eq (as.forM f) (bs.forM g) := by
  induction has with
  | nil => exact .pure rfl
  | cons hab _ ih => exact (h _ _ hab).bind fun _ _ _ => ih

theorem mapM {f : α → Eval γ} {g : β → Eval γ} {as : List α} {bs : List β}
    (has : List.Forall₂ R as bs) (h : ∀ a b, R a b → d.Agree Eq (f a) (g b)) :
    d.Agree Eq (as.mapM f) (bs.mapM g) := by
  induction has with
  | nil =>
      rw [List.mapM_nil, List.mapM_nil]
      exact .pure rfl
  | cons hab _ ih =>
      rw [List.mapM_cons, List.mapM_cons]
      refine (h _ _ hab).bind fun c c' hc => ih.bind fun cs cs' hcs => .pure ?_
      rw [hc, hcs]

end Agree

/-! ### Failures and names -/

/-- Failures at the same token, perhaps further down. -/
theorem agree_fail {R : α → β → Prop} {n : Nat} (hn : d.moved n) (token : Token)
    (cause : RuntimeCause) :
    d.Agree R (Eval.fail token cause : Eval α) (Eval.fail (token.down n) cause : Eval β) :=
  .throw (.down token cause hn)

theorem agree_crash {R : α → β → Prop} (c : Crash) :
    d.Agree R (Eval.crash c : Eval α) (Eval.crash c : Eval β) := .throw (.same _)

theorem agree_ofOperator {n : Nat} (hn : d.moved n) (token : Token)
    (r : Except OperatorFailure Value) :
    d.Agree Eq (Eval.ofOperator token r) (Eval.ofOperator (token.down n) r) := by
  cases r with
  | ok v => exact .pure rfl
  | error e =>
      cases e with
      | error cause => exact agree_fail hn token cause
      | crash c => exact agree_crash c

theorem agree_newScope (parent : Ref .scope) :
    d.Agree Eq (Eval.newScope parent) (Eval.newScope parent) := by
  refine .modifying fun w w' hw => ?_
  rw [hw.scopes]
  exact ⟨rfl, { hw with scopes := rfl }⟩

theorem agree_define (scope : Ref .scope) (name : String) (v : Value) :
    d.Agree Eq (Eval.define scope name v) (Eval.define scope name v) :=
  .modify fun w w' hw => { hw with scopes := by rw [hw.scopes] }

theorem agree_ancestor (scope : Ref .scope) (hops : Nat) :
    d.Agree Eq (Eval.ancestor scope hops) (Eval.ancestor scope hops) := by
  refine .looking fun w w' hw => ?_
  rw [hw.scopes]
  cases w.scopes.ancestor? hops scope with
  | some r => exact .pure rfl
  | none => exact agree_crash _

theorem agree_loadAt (scope : Ref .scope) (hops : Nat) (name : String) :
    d.Agree Eq (Eval.loadAt scope hops name) (Eval.loadAt scope hops name) := by
  refine (agree_ancestor scope hops).bind fun r r' hr => .looking fun w w' hw => ?_
  rw [hr, hw.scopes]
  cases w.scopes.find? r' name with
  | some v => exact .pure rfl
  | none => exact agree_crash _

section Moved
variable {n : Nat} (hn : d.moved n)
include hn

theorem agree_read (site : Site) (use : NameUse) :
    d.Agree Eq (Eval.read site use) (Eval.read site (use.down n)) := by
  unfold Eval.read
  rw [NameUse.hops_down]
  cases use.hops with
  | some hops => exact agree_loadAt _ _ _
  | none =>
      refine .looking fun w w' hw => ?_
      rw [NameUse.name_down, Token.lexeme_down, hw.scopes, hw.globals]
      cases w.scopes.load? (w.globals site.home) use.name.lexeme with
      | some v => exact .pure rfl
      | none => exact agree_fail hn _ _

theorem agree_assign (site : Site) (use : NameUse) (v : Value) :
    d.Agree Eq (Eval.assign site use v) (Eval.assign site (use.down n) v) := by
  unfold Eval.assign
  rw [NameUse.hops_down]
  cases use.hops with
  | some hops =>
      refine (agree_ancestor _ _).bind fun r r' hr => ?_
      rw [hr]
      exact agree_define _ _ _
  | none =>
      refine .getting fun w w' hw => ?_
      rw [NameUse.name_down, Token.lexeme_down, hw.scopes, hw.globals]
      cases w.scopes.store? (w.globals site.home) use.name.lexeme v with
      | some scopes => exact .ok rfl { hw with scopes := rfl }
      | none => exact agree_fail hn _ _ _ _ hw

end Moved

/-! ### Objects -/

theorem agree_newFunction {f f' : Closure} (h : d.Closures f f') :
    d.Agree Eq (Eval.newFunction f) (Eval.newFunction f') := by
  refine .modifying fun w w' hw => ⟨?_, { hw with functions := hw.functions.add h }⟩
  rw [hw.functions.next]

theorem agree_newClass {c c' : ClassObject} (h : d.Classes c c') :
    d.Agree Eq (Eval.newClass c) (Eval.newClass c') := by
  refine .modifying fun w w' hw => ⟨?_, { hw with classes := hw.classes.add h }⟩
  rw [hw.classes.next]

theorem agree_newInstance (c : Ref .class) :
    d.Agree Eq (Eval.newInstance c) (Eval.newInstance c) := by
  refine .modifying fun w w' hw => ?_
  rw [hw.instances]
  exact ⟨rfl, { hw with instances := rfl }⟩

theorem agree_bound {f f' : Closure} (h : d.Closures f f') (receiver : Ref .instance) :
    d.Agree d.Closures (Eval.bound f receiver) (Eval.bound f' receiver) := by
  obtain ⟨n, hn, rfl⟩ := h
  refine (agree_newScope f.scope).bind fun scope scope' hscope => ?_
  rw [hscope]
  exact (agree_define _ _ _).bind fun _ _ _ => .pure ⟨n, hn, rfl⟩

/-- A method, bound to its receiver and kept. -/
theorem agree_boundFunction {f f' : Closure} (h : d.Closures f f') (receiver : Ref .instance) :
    d.Agree Eq (do Eval.newFunction (← Eval.bound f receiver))
      (do Eval.newFunction (← Eval.bound f' receiver)) :=
  (agree_bound h receiver).bind fun _ _ hg => agree_newFunction hg

/-- The methods of a class, perhaps further down. -/
theorem down_methods (n : Nat) (scope : Ref .scope) (home : Ref .interpreter)
    (methods : List FunctionDecl) (ms : Bindings Closure) :
    (methods.map (FunctionDecl.down n)).foldl (fun ms f => ms.insert f.displayName
      ⟨f, scope, home, f.displayName == "init"⟩) (ms.map (Closure.down n)) =
    (methods.foldl (fun ms f => ms.insert f.displayName
      ⟨f, scope, home, f.displayName == "init"⟩) ms).map (Closure.down n) := by
  induction methods generalizing ms with
  | nil => rfl
  | cons f methods ih =>
      rw [List.map_cons, List.foldl_cons, List.foldl_cons, ← ih, Bindings.map_insert,
        FunctionDecl.displayName_down]
      rfl

section Moved
variable {n : Nat} (hn : d.moved n)
include hn

theorem agree_property (object : Value) (name : Token) :
    d.Agree Eq (Eval.property object name) (Eval.property object (name.down n)) := by
  refine .looking fun w w' hw => ?_
  cases object with
  | «instance» r =>
      dsimp only
      rw [hw.instances, Token.lexeme_down]
      cases (w.instances.get r).fields.find? name.lexeme with
      | some v => exact .pure rfl
      | none =>
          rcases hw.method? (w.instances.get r).classRef name.lexeme with
            ⟨hm, hm'⟩ | ⟨f, f', hm, hm', hf⟩
          · simp only [hm, hm']
            exact agree_fail hn _ _
          · simp only [hm, hm']
            exact agree_boundFunction hf r
  | module r =>
      dsimp only
      rw [hw.scopes, hw.modules, hw.globals, Token.lexeme_down]
      cases w.scopes.find? (w.globals (w.modules.get r).home) name.lexeme with
      | some v => exact .pure rfl
      | none => exact agree_fail hn _ _
  | _ => exact agree_fail hn _ _

theorem agree_checkFields (object : Value) (name : Token) :
    d.Agree Eq (Eval.checkFields object name) (Eval.checkFields object (name.down n)) := by
  cases object with
  | «instance» r => exact .pure rfl
  | module r => exact .pure rfl
  | _ => exact agree_fail hn _ _

theorem agree_setProperty (object : Value) (name : Token) (v : Value) :
    d.Agree Eq (Eval.setProperty object name v) (Eval.setProperty object (name.down n) v) := by
  refine .getting fun w w' hw => ?_
  cases object with
  | «instance» r =>
      dsimp only
      rw [hw.instances, Token.lexeme_down]
      exact .ok rfl { hw with instances := rfl }
  | module r =>
      dsimp only
      rw [hw.scopes, hw.modules, hw.globals, Token.lexeme_down]
      by_cases hc : w.scopes.contains (w.globals (w.modules.get r).home) name.lexeme = true
      · simp only [hc, if_true]
        exact agree_define _ _ _ _ _ hw
      · simp only [hc]
        exact agree_fail hn _ _ _ _ hw
  | _ => exact agree_fail hn _ _ _ _ hw

theorem agree_superMethod (site : Site) (use : NameUse) (method : Token) :
    d.Agree Eq (Eval.superMethod site use method)
      (Eval.superMethod site (use.down n) (method.down n)) := by
  unfold Eval.superMethod
  rw [NameUse.hops_down]
  cases use.hops with
  | none => exact agree_crash _
  | some hops =>
      refine (agree_loadAt _ _ _).bind fun superclass superclass' hsuperclass => ?_
      refine (agree_loadAt _ _ _).bind fun receiver receiver' hreceiver => ?_
      subst hsuperclass hreceiver
      cases superclass with
      | «class» c =>
          cases receiver with
          | «instance» i =>
              refine .looking fun w w' hw => ?_
              rw [Token.lexeme_down]
              rcases hw.method? c method.lexeme with ⟨hm, hm'⟩ | ⟨f, f', hm, hm', hf⟩
              · simp only [hm, hm']
                exact agree_fail hn _ _
              · simp only [hm, hm']
                exact agree_boundFunction hf i
          | _ => exact agree_crash _
      | _ => exact agree_crash _

theorem agree_superclass (site : Site) (use : NameUse) :
    d.Agree Eq (Eval.superclass site use) (Eval.superclass site (use.down n)) := by
  refine (agree_read hn site use).bind fun v v' hv => ?_
  subst hv
  cases v with
  | «class» r => exact .pure rfl
  | _ => exact agree_fail hn _ _

theorem agree_checkCall (callee : Value) (paren : Token) (found : Nat) :
    d.Agree Eq (Eval.checkCall callee paren found)
      (Eval.checkCall callee (paren.down n) found) := by
  refine .looking fun w w' hw => ?_
  rw [hw.arity?]
  cases w.arity? callee with
  | none => exact agree_fail hn _ _
  | some expected =>
      by_cases h : found ≠ expected
      · simp only [h, ne_eq, not_false_eq_true, if_true]
        exact agree_fail hn _ _
      · simp only [h, if_false]
        exact .pure rfl

theorem agree_declareClass (site : Site) (name : Token) (parent : Option (Ref .class))
    (methods : List FunctionDecl) :
    d.Agree Eq (Eval.declareClass site name parent methods)
      (Eval.declareClass site (name.down n) parent (methods.map (FunctionDecl.down n))) := by
  have hclass : ∀ scope, d.Agree Eq (do
      let c ← Eval.newClass ⟨name.lexeme, parent, methods.foldl (fun ms f =>
        ms.insert f.displayName ⟨f, scope, site.home, f.displayName == "init"⟩) {}⟩
      Eval.define site.scope name.lexeme c) (do
      let c ← Eval.newClass ⟨name.lexeme, parent, (methods.map (FunctionDecl.down n)).foldl
        (fun ms f => ms.insert f.displayName
          ⟨f, scope, site.home, f.displayName == "init"⟩) {}⟩
      Eval.define site.scope name.lexeme c) := by
    intro scope
    refine Agree.bind (R := Eq) (agree_newClass ⟨n, hn, ?_⟩) fun c c' hc => ?_
    · unfold ClassObject.down
      rw [← down_methods n scope site.home methods {}]
      rfl
    · rw [hc]
      exact agree_define _ _ _
  refine (agree_define _ _ _).bind fun _ _ _ => ?_
  cases parent with
  | none => exact Agree.bind (R := Eq) (.pure rfl) fun scope scope' hscope => hscope ▸ hclass scope
  | some c =>
      refine (agree_newScope site.scope).bind fun scope scope' hscope => ?_
      subst hscope
      refine (agree_define _ _ _).bind fun _ _ _ => ?_
      exact Agree.bind (R := Eq) (.pure rfl) fun scope scope' hscope => hscope ▸ hclass scope

theorem agree_readModule (token : Token) (name : String) (e : FileEntry) :
    d.Agree Eq (Eval.readModule token name e) (Eval.readModule (token.down n) name e) := by
  cases e with
  | file bytes =>
      unfold Eval.readModule
      cases h : Text.decode? bytes with
      | some s =>
          simp only [h]
          exact .pure rfl
      | none =>
          simp only [h]
          exact agree_crash _
  | unreadable reason => exact agree_fail hn _ _
  | directory => exact agree_fail hn _ _

end Moved
end Likeness
end Treewalk
