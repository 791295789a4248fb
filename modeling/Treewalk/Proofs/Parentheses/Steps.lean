import Treewalk.Proofs.Parentheses.Resolving
import Treewalk.Proofs.Loops.Limits
import Treewalk.Proofs.Control.Imports
import Treewalk.Proofs.Twins.Worlds

/-!
# Steps in worlds with parentheses

Two worlds may differ in parentheses in the code that functions and methods keep, and in nothing
else. A step of evaluation has the same result in both, and leaves such worlds.
-/
namespace Treewalk

open Resolve (Anywhere)

/-! ### Worlds -/

/-- Closures of the same function, with parentheses in the second one. -/
inductive Closure.Grouped (f : Closure) : Closure → Prop
  | mk {declaration : FunctionDecl} : f.declaration.Grouped Anywhere declaration →
      f.Grouped { f with declaration := declaration }

/-- Classes with the same methods, with parentheses in the second ones. -/
structure ClassObject.Grouped (c c' : ClassObject) : Prop where
  name : c'.name = c.name
  superclass : c'.superclass = c.superclass
  methods : ∀ name, Option.Rel Closure.Grouped (c.methods.find? name) (c'.methods.find? name)

/-- Worlds that differ in parentheses in the code of functions and methods only. -/
inductive World.Grouped (w : World) : World → Prop
  | mk {functions : Arena .function Closure} {classes : Arena .class ClassObject} :
      w.functions.Matches (fun _ => Closure.Grouped) functions →
      w.classes.Matches (fun _ => ClassObject.Grouped) classes →
      w.Grouped { w with functions := functions, classes := classes }

theorem Closure.Grouped.refl (f : Closure) : f.Grouped f := .mk f.declaration.grouped_self

theorem ClassObject.Grouped.refl (c : ClassObject) : c.Grouped c where
  name := rfl
  superclass := rfl
  methods := fun name => by
    cases c.methods.find? name with
    | none => exact .none
    | some f => exact .some (.refl f)

namespace World.Grouped
variable {w w' : World}

theorem refl (w : World) : w.Grouped w :=
  .mk (.refl (fun _ => .refl) _) (.refl (fun _ => .refl) _)

section
variable (h : w.Grouped w')
include h

theorem functions : w.functions.Matches (fun _ => Closure.Grouped) w'.functions := by
  cases h with
  | mk hf _ => exact hf

theorem classes : w.classes.Matches (fun _ => ClassObject.Grouped) w'.classes := by
  cases h with
  | mk _ hc => exact hc

/-- All that programs can change, but functions and classes. -/
theorem scopes : w'.scopes = w.scopes := by
  cases h
  rfl

theorem instances : w'.instances = w.instances := by
  cases h
  rfl

theorem modules : w'.modules = w.modules := by
  cases h
  rfl

theorem interpreters : w'.interpreters = w.interpreters := by
  cases h
  rfl

/-! ### What programs see -/

/-- The same methods are found. -/
theorem method? (r : Ref .class) (name : String) :
    w.method? r name = none ∧ w'.method? r name = none ∨
      ∃ f f', w.method? r name = some f ∧ w'.method? r name = some f' ∧ f.Grouped f' :=
  World.method?_rel (fun c => (h.classes.get c).methods) (fun c => (h.classes.get c).superclass) r name

theorem arity? (v : Value) : w'.arity? v = w.arity? v := by
  have hlength : ∀ f f' : Closure, f.Grouped f' → f'.arity = f.arity := by
    intro f f' hf
    cases hf with
    | mk hd =>
        unfold Closure.arity
        rw [hd.parameters]
  exact World.arity?_congr hlength (fun r => hlength _ _ (h.functions.get r))
    (fun r => h.method? r "init") v

theorem display (v : Value) : w'.display v = w.display v := by
  have hshown : ∀ f f' : Closure, f.Grouped f' →
      f'.declaration.displayName = f.declaration.displayName := by
    intro f f' hf
    cases hf with
    | mk hd => exact hd.displayName
  exact World.display_congr (fun r => hshown _ _ (h.functions.get r))
    (fun r => (h.classes.get r).name) h.instances h.modules v

/-! ### What is done to both -/

theorem log (l : LogLine) : (w.log l).Grouped (w'.log l) := by
  cases h with
  | mk hf hc => exact .mk hf hc

theorem updateInterpreter (home : Ref .interpreter) (f : Interpreter → Interpreter) :
    (w.updateInterpreter home f).Grouped (w'.updateInterpreter home f) := by
  cases h with
  | mk hf hc => exact .mk hf hc

theorem updateLoader (loader : Ref .loader) (f : Loader → Loader) :
    (w.updateLoader loader f).Grouped (w'.updateLoader loader f) := by
  cases h with
  | mk hf hc => exact .mk hf hc

theorem reportRuntime (home : Ref .interpreter) (e : RuntimeError) :
    (w.reportRuntime home e).Grouped (w'.reportRuntime home e) := by
  cases h with
  | mk hf hc => exact .mk hf hc

theorem publish (home : Ref .interpreter) (notice : Notice) :
    (w.publish home notice).Grouped (w'.publish home notice) := by
  cases h with
  | mk hf hc => cases notice <;> exact .mk hf hc

theorem addInterpreter (unit : String) (loader : Ref .loader) :
    (w.addInterpreter unit loader).Grouped (w'.addInterpreter unit loader) := by
  refine World.addInterpreter_both h unit loader (congrArg Arena.size h.interpreters) h.log
    fun v v' hv => ?_
  cases hv with
  | mk hf hc => exact .mk hf hc

theorem enroll (name : String) (loader : Ref .loader) (place : RealPath) :
    (w.enroll name loader place).Grouped (w'.enroll name loader place) := by
  have hadd := (h.log (.moduleLoading name place.text)).addInterpreter name loader
  have hmodule : ∀ {v v' : World} (m : ModuleObject), v.Grouped v' →
      { v with modules := v.modules.add m }.Grouped { v' with modules := v'.modules.add m } := by
    intro v v' m hv
    cases hv with
    | mk hf hc => exact .mk hf hc
  unfold World.enroll
  dsimp only
  rw [h.interpreters, h.modules]
  exact (hmodule _ hadd).updateLoader loader _

end

theorem publishAll (h : w.Grouped w') (home : Ref .interpreter) (notices : List Notice) :
    (notices.foldl (fun w notice => w.publish home notice) w).Grouped
      (notices.foldl (fun w notice => w.publish home notice) w') :=
  List.foldl_rel h fun notice _ _ _ h => h.publish home notice

end World.Grouped

/-! ### Computations -/

namespace Eval
variable {α β γ δ : Type} {R : α → β → Prop} {S : γ → δ → Prop}

/-- The same end in worlds that differ in parentheses, unless the limit cut the second run short. -/
inductive AlikeEnds (R : α → β → Prop) : Ending α → Ending β → Prop
  | ok {a : α} {b : β} {w w' : World} : R a b → w.Grouped w' → AlikeEnds R (.ok a w) (.ok b w')
  | error (i : Interrupt) {w w' : World} : w.Grouped w' → AlikeEnds R (.error i w) (.error i w')
  | short (r : Ending α) {r' : Ending β} : r'.Short → AlikeEnds R r r'

/-- Computations that do the same, unless the limit cuts the second one short. -/
def Alike (R : α → β → Prop) (p : Eval α) (q : Eval β) : Prop :=
  ∀ w w', w.Grouped w' → AlikeEnds R (p w) (q w')

namespace Alike

theorem pure {a : α} {b : β} (h : R a b) :
    Alike R (Pure.pure a : Eval α) (Pure.pure b : Eval β) := fun _ _ hw => .ok h hw

theorem throw (i : Interrupt) :
    Alike R (MonadExcept.throw i : Eval α) (MonadExcept.throw i : Eval β) :=
  fun _ _ hw => .error i hw

/-- The second run has no level left. -/
theorem overflow (p : Eval α) : Alike R p (MonadExcept.throw .overflow : Eval β) :=
  fun _ w' _ => .short _ (CutShort.overflow w')

theorem bind {p : Eval α} {q : Eval β} {f : α → Eval γ} {g : β → Eval δ} (hp : Alike R p q)
    (hf : ∀ a b, R a b → Alike S (f a) (g b)) : Alike S (p >>= f) (q >>= g) := by
  intro w w' hw
  have hpq := hp w w' hw
  rw [bind_ending, bind_ending]
  generalize p w = r at hpq
  generalize q w' = r' at hpq
  cases hpq with
  | ok hab ht => exact hf _ _ hab _ _ ht
  | error i ht => exact .error i ht
  | short r hr => exact .short _ (hr.andThen g)

theorem map {p : Eval α} {q : Eval β} {f : α → γ} {g : β → δ} (h : Alike R p q)
    (hf : ∀ a b, R a b → S (f a) (g b)) : Alike S (f <$> p) (g <$> q) :=
  h.bind fun a b hab => .pure (hf a b hab)

/-- What depends on the world. -/
theorem getting {f : World → Eval α} {g : World → Eval β}
    (h : ∀ w w', w.Grouped w' → AlikeEnds R (f w w) (g w' w')) :
    Alike R (get >>= f) (get >>= g) := h

/-- What depends on the world, but in the same way. -/
theorem looking {f : World → Eval α} {g : World → Eval β}
    (h : ∀ w w', w.Grouped w' → Alike R (f w) (g w')) :
    Alike R (get >>= f) (get >>= g) := fun w w' hw => h w w' hw w w' hw

theorem modifying {f : World → α × World} {g : World → β × World}
    (h : ∀ w w', w.Grouped w' → R (f w).1 (g w').1 ∧ (f w).2.Grouped (g w').2) :
    Alike R (modifyGet f : Eval α) (modifyGet g : Eval β) :=
  fun w w' hw => .ok (h w w' hw).1 (h w w' hw).2

theorem modify {f g : World → World} (h : ∀ w w', w.Grouped w' → (f w).Grouped (g w')) :
    Alike Eq (modify f : Eval Unit) (modify g : Eval Unit) :=
  fun w w' hw => .ok rfl (h w w' hw)

theorem forM {f : α → Eval Unit} {g : β → Eval Unit} {as : List α} {bs : List β}
    (has : List.Forall₂ R as bs) (h : ∀ a b, R a b → Alike Eq (f a) (g b)) :
    Alike Eq (as.forM f) (bs.forM g) := by
  induction has with
  | nil => exact .pure rfl
  | cons hab _ ih => exact (h _ _ hab).bind fun _ _ _ => ih

theorem mapM {f : α → Eval γ} {g : β → Eval γ} {as : List α} {bs : List β}
    (has : List.Forall₂ R as bs) (h : ∀ a b, R a b → Alike Eq (f a) (g b)) :
    Alike Eq (as.mapM f) (bs.mapM g) := by
  induction has with
  | nil =>
      rw [List.mapM_nil, List.mapM_nil]
      exact .pure rfl
  | cons hab _ ih =>
      rw [List.mapM_cons, List.mapM_cons]
      refine (h _ _ hab).bind fun c c' hc => ih.bind fun cs cs' hcs => .pure ?_
      rw [hc, hcs]

end Alike

/-! ### Failures and names -/

theorem alike_fail (token : Token) (cause : RuntimeCause) :
    Alike R (fail token cause : Eval α) (fail token cause : Eval β) := .throw _

theorem alike_crash (c : Crash) : Alike R (crash c : Eval α) (crash c : Eval β) := .throw _

theorem alike_ofOperator (token : Token) (r : Except OperatorFailure Value) :
    Alike Eq (ofOperator token r) (ofOperator token r) := by
  cases r with
  | ok v => exact .pure rfl
  | error e =>
      cases e with
      | error cause => exact alike_fail token cause
      | crash c => exact alike_crash c

theorem alike_newScope (parent : Ref .scope) : Alike Eq (newScope parent) (newScope parent) := by
  refine .modifying fun w w' hw => ?_
  cases hw with
  | mk hf hc => exact ⟨rfl, .mk hf hc⟩

theorem alike_define (scope : Ref .scope) (name : String) (v : Value) :
    Alike Eq (define scope name v) (define scope name v) := by
  refine .modify fun w w' hw => ?_
  cases hw with
  | mk hf hc => exact .mk hf hc

theorem alike_ancestor (scope : Ref .scope) (hops : Nat) :
    Alike Eq (ancestor scope hops) (ancestor scope hops) := by
  refine .looking fun w w' hw => ?_
  rw [hw.scopes]
  cases w.scopes.ancestor? hops scope with
  | some r => exact .pure rfl
  | none => exact alike_crash _

theorem alike_loadAt (scope : Ref .scope) (hops : Nat) (name : String) :
    Alike Eq (loadAt scope hops name) (loadAt scope hops name) := by
  refine (alike_ancestor scope hops).bind fun r r' hr => .looking fun w w' hw => ?_
  rw [hr, hw.scopes]
  cases w.scopes.find? r' name with
  | some v => exact .pure rfl
  | none => exact alike_crash _

theorem alike_read (site : Site) (use : NameUse) : Alike Eq (read site use) (read site use) := by
  unfold read
  cases use.hops with
  | some hops => exact alike_loadAt _ _ _
  | none =>
      refine .looking fun w w' hw => ?_
      unfold World.globals
      rw [hw.scopes, hw.interpreters]
      cases w.scopes.load? (w.interpreters.get site.home).globals use.name.lexeme with
      | some v => exact .pure rfl
      | none => exact alike_fail _ _

theorem alike_assign (site : Site) (use : NameUse) (v : Value) :
    Alike Eq (assign site use v) (assign site use v) := by
  unfold assign
  cases use.hops with
  | some hops =>
      refine (alike_ancestor _ _).bind fun r r' hr => ?_
      rw [hr]
      exact alike_define _ _ _
  | none =>
      refine .getting fun w w' hw => ?_
      cases hw with
      | mk hf hc =>
          unfold World.globals
          dsimp only
          cases w.scopes.store? (w.interpreters.get site.home).globals use.name.lexeme v with
          | some scopes => exact .ok rfl (.mk hf hc)
          | none => exact alike_fail _ _ _ _ (.mk hf hc)

/-! ### Objects -/

theorem alike_newFunction {f f' : Closure} (h : f.Grouped f') :
    Alike Eq (newFunction f) (newFunction f') := by
  refine .modifying fun w w' hw => ?_
  cases hw with
  | mk hf hc => exact ⟨congrArg Value.function hf.next.symm, .mk (hf.add h) hc⟩

theorem alike_newClass {c c' : ClassObject} (h : c.Grouped c') :
    Alike Eq (newClass c) (newClass c') := by
  refine .modifying fun w w' hw => ?_
  cases hw with
  | mk hf hc => exact ⟨congrArg Value.class hc.next.symm, .mk hf (hc.add h)⟩

theorem alike_newInstance (c : Ref .class) : Alike Eq (newInstance c) (newInstance c) := by
  refine .modifying fun w w' hw => ?_
  cases hw with
  | mk hf hc => exact ⟨rfl, .mk hf hc⟩

theorem alike_bound {f f' : Closure} (h : f.Grouped f') (receiver : Ref .instance) :
    Alike Closure.Grouped (bound f receiver) (bound f' receiver) := by
  cases h with
  | mk hd =>
      refine (alike_newScope f.scope).bind fun scope scope' hscope => ?_
      subst hscope
      exact (alike_define _ _ _).bind fun _ _ _ => .pure (.mk hd)

/-- A method, bound to its receiver and kept. -/
theorem alike_boundFunction {f f' : Closure} (h : f.Grouped f') (receiver : Ref .instance) :
    Alike Eq (do newFunction (← bound f receiver)) (do newFunction (← bound f' receiver)) :=
  (alike_bound h receiver).bind fun _ _ hg => alike_newFunction hg

theorem alike_property (object : Value) (name : Token) :
    Alike Eq (property object name) (property object name) := by
  refine .looking fun w w' hw => ?_
  cases object with
  | «instance» r =>
      dsimp only
      rw [hw.instances]
      cases (w.instances.get r).fields.find? name.lexeme with
      | some v => exact .pure rfl
      | none =>
          rcases hw.method? (w.instances.get r).classRef name.lexeme with
            ⟨hm, hm'⟩ | ⟨f, f', hm, hm', hf⟩
          · simp only [hm, hm']
            exact alike_fail _ _
          · simp only [hm, hm']
            exact alike_boundFunction hf r
  | module r =>
      dsimp only
      unfold World.globals
      rw [hw.scopes, hw.modules, hw.interpreters]
      cases w.scopes.find? _ name.lexeme with
      | some v => exact .pure rfl
      | none => exact alike_fail _ _
  | _ => exact alike_fail _ _

theorem alike_checkFields (object : Value) (name : Token) :
    Alike Eq (checkFields object name) (checkFields object name) := by
  cases object with
  | «instance» r => exact .pure rfl
  | module r => exact .pure rfl
  | _ => exact alike_fail _ _

theorem alike_setProperty (object : Value) (name : Token) (v : Value) :
    Alike Eq (setProperty object name v) (setProperty object name v) := by
  refine .getting fun w w' hw => ?_
  cases hw with
  | mk hf hc =>
      cases object with
      | «instance» r => exact .ok rfl (.mk hf hc)
      | module r =>
          unfold World.globals
          dsimp only
          by_cases h : w.scopes.contains (w.interpreters.get (w.modules.get r).home).globals
              name.lexeme = true
          · rw [if_pos h]
            exact alike_define _ _ _ _ _ (.mk hf hc)
          · rw [if_neg h]
            exact alike_fail _ _ _ _ (.mk hf hc)
      | _ => exact alike_fail _ _ _ _ (.mk hf hc)

theorem alike_superMethod (site : Site) (use : NameUse) (method : Token) :
    Alike Eq (superMethod site use method) (superMethod site use method) := by
  unfold superMethod
  cases use.hops with
  | none => exact alike_crash _
  | some hops =>
      refine (alike_loadAt _ _ _).bind fun superclass superclass' hsuperclass => ?_
      refine (alike_loadAt _ _ _).bind fun receiver receiver' hreceiver => ?_
      subst hsuperclass hreceiver
      cases superclass with
      | «class» c =>
          cases receiver with
          | «instance» i =>
              refine .looking fun w w' hw => ?_
              rcases hw.method? c method.lexeme with ⟨hm, hm'⟩ | ⟨f, f', hm, hm', hf⟩
              · simp only [hm, hm']
                exact alike_fail _ _
              · simp only [hm, hm']
                exact alike_boundFunction hf i
          | _ => exact alike_crash _
      | _ => exact alike_crash _

theorem alike_superclass (site : Site) (use : NameUse) :
    Alike Eq (superclass site use) (superclass site use) := by
  refine (alike_read site use).bind fun v v' hv => ?_
  subst hv
  cases v with
  | «class» r => exact .pure rfl
  | _ => exact alike_fail _ _

theorem alike_declareClass (site : Site) (name : Token) (parent : Option (Ref .class))
    {ds ds' : List FunctionDecl} (hds : List.Forall₂ (FunctionDecl.Grouped Anywhere) ds ds') :
    Alike Eq (declareClass site name parent ds) (declareClass site name parent ds') := by
  have hclass : ∀ scope, Alike Eq (do
      let c ← newClass ⟨name.lexeme, parent, ds.foldl (fun ms f =>
        ms.insert f.displayName ⟨f, scope, site.home, f.displayName == "init"⟩) {}⟩
      define site.scope name.lexeme c) (do
      let c ← newClass ⟨name.lexeme, parent, ds'.foldl (fun ms f =>
        ms.insert f.displayName ⟨f, scope, site.home, f.displayName == "init"⟩) {}⟩
      define site.scope name.lexeme c) := by
    intro scope
    refine Alike.bind (R := Eq) (alike_newClass ⟨rfl, rfl, ?_⟩) fun c c' hc => ?_
    · refine rel_methods (hds.imp fun d d' hd => ⟨hd.displayName, ?_⟩) fun _ => .none
      rw [hd.displayName]
      exact .mk hd
    · rw [hc]
      exact alike_define _ _ _
  refine (alike_define _ _ _).bind fun _ _ _ => ?_
  cases parent with
  | none => exact Alike.bind (R := Eq) (.pure rfl) fun scope scope' hscope => hscope ▸ hclass scope
  | some c =>
      refine (alike_newScope site.scope).bind fun scope scope' hscope => ?_
      subst hscope
      refine (alike_define _ _ _).bind fun _ _ _ => ?_
      exact Alike.bind (R := Eq) (.pure rfl) fun scope scope' hscope => hscope ▸ hclass scope

/-! ### Calls and modules -/

theorem alike_checkCall (callee : Value) (paren : Token) (found : Nat) :
    Alike Eq (checkCall callee paren found) (checkCall callee paren found) := by
  refine .looking fun w w' hw => ?_
  rw [hw.arity?]
  cases w.arity? callee with
  | none => exact alike_fail _ _
  | some expected =>
      by_cases h : found ≠ expected
      · simp only [h, ne_eq, not_false_eq_true, if_true]
        exact alike_fail _ _
      · simp only [h, if_false]
        exact .pure rfl

theorem alike_readModule (token : Token) (name : String) (e : FileEntry) :
    Alike Eq (readModule token name e) (readModule token name e) := by
  cases e with
  | file bytes =>
      unfold readModule
      cases h : Text.decode? bytes with
      | some s =>
          simp only [h]
          exact .pure rfl
      | none =>
          simp only [h]
          exact alike_crash _
  | unreadable reason => exact alike_fail _ _
  | directory => exact alike_fail _ _

end Eval
end Treewalk
