import Treewalk.Proofs.Renaming.Worlds
import Treewalk.Proofs.Loops.Limits

/-!
# Steps with a local renamed

A step of evaluation has the same result in worlds of which the second one has the old name renamed.
-/
namespace Treewalk

namespace Renaming

/-- The same interrupt, but for what the token of an error or a missing local is called. -/
inductive Interrupts : Interrupt → Interrupt → Prop
  | same (i : Interrupt) : Interrupts i i
  | error (e : RuntimeError) (lexeme : String) :
      Interrupts (.error e) (.error { e with token := { e.token with lexeme := lexeme } })
  | missing (name name' : String) :
      Interrupts (.crash (.missingLocal name)) (.crash (.missingLocal name'))

namespace Chart
variable {ρ : Renaming} {Φ Ψ : Chart} {Γ : Context} {α β γ δ : Type}

/-- The same end of two runs. -/
inductive Outcomes (ρ : Renaming) (Φ : Chart) (R : Chart → α → β → Prop) :
    Ending α → Ending β → Prop
  | ok {Ψ : Chart} {a : α} {b : β} {w w' : World} : Φ ≤ Ψ → R Ψ a b → Worlds ρ Ψ w w' →
      Outcomes ρ Φ R (.ok a w) (.ok b w')
  | error {Ψ : Chart} {i i' : Interrupt} {w w' : World} : Φ ≤ Ψ → Interrupts i i' →
      Worlds ρ Ψ w w' → Outcomes ρ Φ R (.error i w) (.error i' w')

/-- Computations that do the same in worlds of which the second one has the old name renamed. -/
def Agree (ρ : Renaming) (Φ : Chart) (R : Chart → α → β → Prop) (p : Eval α) (q : Eval β) : Prop :=
  ∀ Ψ, Φ ≤ Ψ → ∀ w w', Worlds ρ Ψ w w' → Outcomes ρ Ψ R (p w) (q w')

/-- The same result. -/
def Same : Chart → α → α → Prop := fun _ => Eq

variable {R : Chart → α → β → Prop} {S : Chart → γ → δ → Prop}

theorem Outcomes.le {r : Ending α} {r' : Ending β} (h : Outcomes ρ Ψ R r r') (hle : Φ ≤ Ψ) :
    Outcomes ρ Φ R r r' := by
  cases h with
  | ok hΨ hab hw => exact .ok (le_trans hle hΨ) hab hw
  | error hΨ hi hw => exact .error (le_trans hle hΨ) hi hw

theorem Outcomes.andThen {r : Ending α} {r' : Ending β} {f : α → Eval γ} {g : β → Eval δ}
    (h : Outcomes ρ Φ R r r') (hf : ∀ Ψ, Φ ≤ Ψ → ∀ a b, R Ψ a b → ∀ w w', Worlds ρ Ψ w w' →
      Outcomes ρ Ψ S (f a w) (g b w')) : Outcomes ρ Φ S (r.andThen f) (r'.andThen g) := by
  cases h with
  | ok hΨ hab hw => exact (hf _ hΨ _ _ hab _ _ hw).le hΨ
  | error hΨ hi hw => exact .error hΨ hi hw

namespace Agree

theorem mono {p : Eval α} {q : Eval β} (h : Agree ρ Φ R p q) (hle : Φ ≤ Ψ) : Agree ρ Ψ R p q :=
  fun Θ hΘ => h Θ (le_trans hle hΘ)

theorem pure {a : α} {b : β} (h : ∀ Ψ, Φ ≤ Ψ → R Ψ a b) :
    Agree ρ Φ R (Pure.pure a : Eval α) (Pure.pure b : Eval β) :=
  fun Ψ hΨ _ _ hw => .ok (le_refl Ψ) (h Ψ hΨ) hw

theorem throw {i i' : Interrupt} (h : Interrupts i i') :
    Agree ρ Φ R (MonadExcept.throw i : Eval α) (MonadExcept.throw i' : Eval β) :=
  fun Ψ _ _ _ hw => .error (le_refl Ψ) h hw

theorem bind {p : Eval α} {q : Eval β} {f : α → Eval γ} {g : β → Eval δ} (hp : Agree ρ Φ R p q)
    (hf : ∀ Ψ, Φ ≤ Ψ → ∀ a b, R Ψ a b → Agree ρ Ψ S (f a) (g b)) :
    Agree ρ Φ S (p >>= f) (q >>= g) := by
  intro Ψ hΨ w w' hw
  rw [Eval.bind_ending, Eval.bind_ending]
  exact (hp Ψ hΨ w w' hw).andThen fun Θ hΘ a b hab =>
    hf Θ (le_trans hΨ hΘ) a b hab Θ (le_refl Θ)

theorem map {p q : Eval α} (h : Agree ρ Φ Same p q) (f : α → γ) :
    Agree ρ Φ Same (f <$> p) (f <$> q) :=
  h.bind fun _ _ _ _ hab => .pure fun _ _ => congrArg f hab

/-- What depends on the world. -/
theorem getting {f : World → Eval α} {g : World → Eval β}
    (h : ∀ Ψ, Φ ≤ Ψ → ∀ w w', Worlds ρ Ψ w w' → Outcomes ρ Ψ R (f w w) (g w' w')) :
    Agree ρ Φ R (get >>= f) (get >>= g) := h

/-- What depends on the world, but in the same way. -/
theorem looking {f : World → Eval α} {g : World → Eval β}
    (h : ∀ Ψ, Φ ≤ Ψ → ∀ w w', Worlds ρ Ψ w w' → Agree ρ Ψ R (f w) (g w')) :
    Agree ρ Φ R (get >>= f) (get >>= g) :=
  fun Ψ hΨ w w' hw => h Ψ hΨ w w' hw Ψ (le_refl Ψ) w w' hw

theorem modify {f g : World → World}
    (h : ∀ Ψ, Φ ≤ Ψ → ∀ w w', Worlds ρ Ψ w w' → Worlds ρ Ψ (f w) (g w')) :
    Agree ρ Φ Same (modify f : Eval Unit) (modify g : Eval Unit) :=
  fun Ψ hΨ w w' hw => .ok (le_refl Ψ) rfl (h Ψ hΨ w w' hw)

end Agree

/-! ### Failures and names -/

theorem agree_fail (token : Token) (cause : RuntimeCause) :
    Agree ρ Φ R (Eval.fail token cause : Eval α) (Eval.fail token cause : Eval β) :=
  .throw (.same _)

theorem agree_failRenamed (token : Token) (renamed : Bool) (cause : RuntimeCause) :
    Agree ρ Φ R (Eval.fail token cause : Eval α)
      (Eval.fail (ρ.token renamed token) cause : Eval β) :=
  .throw (.error ⟨token, cause⟩ _)

theorem agree_crash (c : Crash) :
    Agree ρ Φ R (Eval.crash c : Eval α) (Eval.crash c : Eval β) := .throw (.same _)

theorem agree_ofOperator (token : Token) (r : Except OperatorFailure Value) :
    Agree ρ Φ Same (Eval.ofOperator token r) (Eval.ofOperator token r) := by
  cases r with
  | ok v => exact .pure fun _ _ => rfl
  | error e =>
      cases e with
      | error cause => exact agree_fail token cause
      | crash c => exact agree_crash c

/-- A scope more, in which the old name is renamed or not. -/
theorem agree_newScope {p : Ref .scope} (h : Φ.Sees Γ.marks p) (renamed : Bool) :
    Agree ρ Φ (fun Ψ r r' => r' = r ∧ Ψ.Sees (Γ.enter renamed).marks r)
      (Eval.newScope p) (Eval.newScope p) := by
  intro Ψ hΨ w w' hw
  have hle := le_grow Ψ renamed w.scopes.next (some p)
  have hnext : w'.scopes.next = w.scopes.next := congrArg Ref.mk hw.scopes.size
  exact .ok hle ⟨hnext, sees_grow (h.mono hΨ) renamed _⟩
    (hw.extend hle (hw.scopes.grow renamed (some p)))

theorem agree_define {r : Ref .scope} {renamed : Bool} (hr : Φ.mark r renamed) {z : String}
    (hz : renamed = true → z ≠ ρ.new) (v : Value) :
    Agree ρ Φ Same (Eval.define r z v) (Eval.define r (ρ.name renamed z) v) :=
  .modify fun _ hΨ _ _ hw => hw.extend (le_refl _) (hw.scopes.define (hΨ.mark hr) hz v)

/-- A word of the language is bound, as for receivers and superclasses. -/
theorem agree_defineWord {r : Ref .scope} {renamed : Bool} (hr : Φ.mark r renamed) {z : String}
    (hz : TokenKind.ofWord z ≠ .identifier) (v : Value) :
    Agree ρ Φ Same (Eval.define r z v) (Eval.define r z v) := by
  have hne := ρ.ne_of_word hz
  have hdefine := agree_define (ρ := ρ) hr (fun _ => hne.2) v
  rwa [name_of_ne hne.1] at hdefine

theorem agree_defineGlobal {r : Ref .scope} (hr : Φ.mark r false) (z : String) (v : Value) :
    Agree ρ Φ Same (Eval.define r z v) (Eval.define r z v) := by
  have hdefine := agree_define (ρ := ρ) (z := z) hr nofun v
  rwa [name_false] at hdefine

/-- A name that stays is bound. -/
theorem agree_bindName {r : Ref .scope} (hr : Φ.Sees Γ.marks r) {z : String} (hz : Γ.Keeps ρ z)
    (v : Value) : Agree ρ Φ Same (Eval.define r z v) (Eval.define r z v) := by
  have hdefine := agree_define (ρ := ρ) hr.here (fun hhere => hz.1 (marked_of_renames hhere)) v
  have hname : ρ.name Γ.here z = z := if_neg fun ⟨hhere, hold⟩ => hz.2 hhere hold
  rwa [hname] at hdefine

theorem agree_ancestor {r : Ref .scope} (h : Φ.Sees Γ.marks r) (hops : Nat) :
    Agree ρ Φ (fun Ψ a a' => a' = a ∧ Ψ.mark a (renames Γ.marks (some hops)))
      (Eval.ancestor r hops) (Eval.ancestor r hops) := by
  refine .looking fun Ψ hΨ w w' hw => ?_
  obtain ⟨hsame, hmark⟩ := hw.scopes.ancestor? (h.mono hΨ) hops
  rw [hsame]
  cases ha : w.scopes.ancestor? hops r with
  | some a => exact .pure fun Θ hΘ => ⟨rfl, hΘ.mark (hmark a ha)⟩
  | none => exact agree_crash _

/-- What is bound so many hops outward is found under the name that it has there. -/
theorem agree_loadAt {r : Ref .scope} (h : Φ.Sees Γ.marks r) (hops : Nat) {z : String}
    (hz : Γ.Fresh ρ z) :
    Agree ρ Φ Same (Eval.loadAt r hops z)
      (Eval.loadAt r hops (ρ.name (renames Γ.marks (some hops)) z)) := by
  refine (agree_ancestor h hops).bind fun Ψ _ a a' ⟨hsame, ha⟩ => .looking fun Θ hΘ w w' hw => ?_
  rw [hsame, hw.scopes.find? (hΘ.mark ha) fun hrenamed => hz (marked_of_renames hrenamed)]
  cases w.scopes.find? a z with
  | some v => exact .pure fun _ _ => rfl
  | none => exact .throw (.missing _ _)

theorem agree_loadWord {r : Ref .scope} (h : Φ.Sees Γ.marks r) (hops : Nat) {z : String}
    (hz : TokenKind.ofWord z ≠ .identifier) :
    Agree ρ Φ Same (Eval.loadAt r hops z) (Eval.loadAt r hops z) := by
  have hne := ρ.ne_of_word hz
  have hload := agree_loadAt (ρ := ρ) h hops fun _ => hne.2
  rwa [name_of_ne hne.1] at hload

section
variable {site : Site} (hsite : Φ.Sees Γ.marks site.scope) {use : NameUse}
  (hz : Γ.Fresh ρ use.name.lexeme)
include hsite hz

theorem agree_read : Agree ρ Φ Same (Eval.read site use) (Eval.read site (ρ.use Γ use)) := by
  cases hu : use.hops with
  | some hops =>
      unfold Eval.read
      rw [hops_use, lexeme_use, hu]
      exact agree_loadAt hsite hops hz
  | none =>
      rw [use_of_global Γ hu]
      unfold Eval.read
      rw [hu]
      refine .looking fun Ψ hΨ w w' hw => ?_
      rw [hw.load?]
      cases w.scopes.load? (w.globals site.home) use.name.lexeme with
      | some v => exact .pure fun _ _ => rfl
      | none => exact agree_fail _ _

theorem agree_assign (v : Value) :
    Agree ρ Φ Same (Eval.assign site use v) (Eval.assign site (ρ.use Γ use) v) := by
  cases hu : use.hops with
  | some hops =>
      unfold Eval.assign
      rw [hops_use, lexeme_use, hu]
      refine (agree_ancestor hsite hops).bind fun Ψ _ a a' ⟨hsame, ha⟩ => ?_
      rw [hsame]
      exact agree_define ha (fun hrenamed => hz (marked_of_renames hrenamed)) v
  | none =>
      rw [use_of_global Γ hu]
      unfold Eval.assign
      rw [hu]
      refine .getting fun Ψ hΨ w w' hw => ?_
      obtain ⟨hmark, hparent⟩ := hw.globals site.home
      obtain ⟨hsame, hroot⟩ := hw.scopes.holder? (z := use.name.lexeme) hmark hparent
      rw [hw.globals_eq]
      unfold Scopes.store?
      rw [hsame]
      cases hh : w.scopes.holder? (w.globals site.home) use.name.lexeme with
      | none => exact agree_fail (R := Same) _ _ Ψ (le_refl Ψ) w w' hw
      | some a =>
          rw [hroot a hh]
          exact agree_defineGlobal hmark _ v Ψ (le_refl Ψ) w w' hw

end

/-! ### Objects -/

theorem agree_newFunction {f f' : Closure} (h : Functions ρ Φ f f') :
    Agree ρ Φ Same (Eval.newFunction f) (Eval.newFunction f') := by
  intro Ψ hΨ w w' hw
  cases hw with
  | mk hs hf hc hg =>
      refine .ok (le_refl Ψ) ?_ (.mk hs (hf.add (h.mono hΨ)) hc hg)
      exact congrArg Value.function hf.next.symm

theorem agree_newClass {c c' : ClassObject} (h : Classes ρ Φ c c') :
    Agree ρ Φ Same (Eval.newClass c) (Eval.newClass c') := by
  intro Ψ hΨ w w' hw
  cases hw with
  | mk hs hf hc hg =>
      refine .ok (le_refl Ψ) ?_ (.mk hs hf (hc.add (h.mono hΨ)) hg)
      exact congrArg Value.class hc.next.symm

theorem agree_newInstance (c : Ref .class) :
    Agree ρ Φ Same (Eval.newInstance c) (Eval.newInstance c) := by
  intro Ψ hΨ w w' hw
  cases hw with
  | mk hs hf hc hg => exact .ok (le_refl Ψ) rfl (.mk hs hf hc hg)

/-- A method with its receiver can be called. -/
theorem agree_bound {f f' : Closure} (h : Methods ρ Φ f f') (receiver : Ref .instance) :
    Agree ρ Φ (Functions ρ) (Eval.bound f receiver) (Eval.bound f' receiver) := by
  cases h with
  | mk hsees hd =>
      refine (agree_newScope hsees false).bind fun Ψ _ r r' ⟨hsame, hr⟩ => ?_
      rw [hsame]
      exact (agree_defineWord hr.here (by decide) _).bind fun Θ hΘ _ _ _ =>
        .pure fun Λ hΛ => .mk ((hr.mono hΘ).mono hΛ) hd

theorem agree_boundFunction {f f' : Closure} (h : Methods ρ Φ f f') (receiver : Ref .instance) :
    Agree ρ Φ Same (do Eval.newFunction (← Eval.bound f receiver))
      (do Eval.newFunction (← Eval.bound f' receiver)) :=
  (agree_bound h receiver).bind fun _ _ _ _ hf => agree_newFunction hf

theorem agree_property (object : Value) (name : Token) :
    Agree ρ Φ Same (Eval.property object name) (Eval.property object name) := by
  refine .looking fun Ψ hΨ w w' hw => ?_
  cases object with
  | «instance» r =>
      dsimp only
      rw [hw.instances]
      cases (w.instances.get r).fields.find? name.lexeme with
      | some v => exact .pure fun _ _ => rfl
      | none =>
          rcases hw.method? (w.instances.get r).classRef name.lexeme with
            ⟨hm, hm'⟩ | ⟨f, f', hm, hm', hf⟩
          · simp only [hm, hm']
            exact agree_fail _ _
          · simp only [hm, hm']
            exact agree_boundFunction hf r
  | module r =>
      have hfind : w'.scopes.find? (w.globals (w.modules.get r).home) name.lexeme =
          w.scopes.find? (w.globals (w.modules.get r).home) name.lexeme :=
        congrArg (Bindings.find? · name.lexeme) (hw.scopes.same (hw.globals _).1)
      dsimp only
      rw [hw.modules, hw.globals_eq, hfind]
      cases w.scopes.find? (w.globals (w.modules.get r).home) name.lexeme with
      | some v => exact .pure fun _ _ => rfl
      | none => exact agree_fail _ _
  | _ => exact agree_fail _ _

theorem agree_checkFields (object : Value) (name : Token) :
    Agree ρ Φ Same (Eval.checkFields object name) (Eval.checkFields object name) := by
  cases object with
  | «instance» r => exact .pure fun _ _ => rfl
  | module r => exact .pure fun _ _ => rfl
  | _ => exact agree_fail _ _

theorem agree_setProperty (object : Value) (name : Token) (v : Value) :
    Agree ρ Φ Same (Eval.setProperty object name v) (Eval.setProperty object name v) := by
  refine .getting fun Ψ hΨ w w' hw => ?_
  cases object with
  | «instance» r =>
      cases hw with
      | mk hs hf hc hg => exact .ok (le_refl Ψ) rfl (.mk hs hf hc hg)
  | module r =>
      have hmark := (hw.globals (w.modules.get r).home).1
      have hcontains : w'.scopes.contains (w.globals (w.modules.get r).home) name.lexeme =
          w.scopes.contains (w.globals (w.modules.get r).home) name.lexeme :=
        congrArg (Bindings.contains · name.lexeme) (hw.scopes.same hmark)
      dsimp only
      rw [hw.modules, hw.globals_eq, hcontains]
      by_cases hc : w.scopes.contains (w.globals (w.modules.get r).home) name.lexeme = true
      · rw [if_pos hc]
        exact agree_defineGlobal hmark _ v Ψ (le_refl Ψ) w w' hw
      · rw [if_neg hc]
        exact agree_fail (R := Same) _ _ Ψ (le_refl Ψ) w w' hw
  | _ => exact agree_fail (R := Same) _ _ Ψ (le_refl Ψ) w w' hw

section
variable {site : Site} (hsite : Φ.Sees Γ.marks site.scope)
include hsite

theorem agree_superMethod (use : NameUse) (method : Token) :
    Agree ρ Φ Same (Eval.superMethod site use method)
      (Eval.superMethod site (ρ.use Γ use) method) := by
  unfold Eval.superMethod
  rw [hops_use]
  cases use.hops with
  | none => exact agree_crash _
  | some hops =>
      refine (agree_loadWord hsite hops (by decide)).bind fun Ψ hΨ superclass superclass' hs => ?_
      refine (agree_loadWord (hsite.mono hΨ) _ (by decide)).bind fun Θ _ receiver receiver' hr => ?_
      cases hs
      cases hr
      cases superclass with
      | «class» c =>
          cases receiver with
          | «instance» i =>
              refine .looking fun Λ _ w w' hw => ?_
              rcases hw.method? c method.lexeme with ⟨hm, hm'⟩ | ⟨f, f', hm, hm', hf⟩
              · simp only [hm, hm']
                exact agree_fail _ _
              · simp only [hm, hm']
                exact agree_boundFunction hf i
          | _ => exact agree_crash _
      | _ => exact agree_crash _

theorem agree_superclass {use : NameUse} (hz : Γ.Fresh ρ use.name.lexeme) :
    Agree ρ Φ Same (Eval.superclass site use) (Eval.superclass site (ρ.use Γ use)) := by
  refine (agree_read hsite hz).bind fun Ψ _ v v' hv => ?_
  cases hv
  cases v with
  | «class» r => exact .pure fun _ _ => rfl
  | _ => exact agree_failRenamed _ _ _

end

section
variable {site : Site} (hsite : Φ.Sees Γ.marks site.scope) {name : Token}
  (hkeeps : Γ.Keeps ρ name.lexeme) {ds ds' : List FunctionDecl}
include hsite hkeeps

/-- A class whose methods see the scope of its statement or one for its superclass. -/
theorem agree_bindClass (parent : Option (Ref .class)) {scope : Ref .scope} {Δ : Context}
    (hscope : Φ.Sees Δ.marks scope) (hds : FunctionsRenamed ρ (Δ.enter false) ds ds') :
    Agree ρ Φ Same
      (do
        let c ← Eval.newClass ⟨name.lexeme, parent, ds.foldl (fun ms d =>
          ms.insert d.displayName ⟨d, scope, site.home, d.displayName == "init"⟩) {}⟩
        Eval.define site.scope name.lexeme c)
      (do
        let c ← Eval.newClass ⟨name.lexeme, parent, ds'.foldl (fun ms d =>
          ms.insert d.displayName ⟨d, scope, site.home, d.displayName == "init"⟩) {}⟩
        Eval.define site.scope name.lexeme c) := by
  refine Agree.bind (R := Same) (agree_newClass ⟨rfl, rfl, ?_⟩) fun Ψ hΨ c c' hc => ?_
  · refine rel_methods (hds.forall₂.imp fun d d' hd => ⟨hd.displayName, ?_⟩) fun _ => .none
    rw [hd.displayName]
    exact .mk hscope hd
  · cases hc
    exact agree_bindName (hsite.mono hΨ) hkeeps c

theorem agree_declareRoot (hds : FunctionsRenamed ρ (Γ.enter false) ds ds') :
    Agree ρ Φ Same (Eval.declareClass site name none ds)
      (Eval.declareClass site name none ds') := by
  refine (agree_bindName hsite hkeeps _).bind fun Ψ hΨ _ _ _ => ?_
  exact agree_bindClass (hsite.mono hΨ) hkeeps none (hsite.mono hΨ) hds

theorem agree_declareDerived (c : Ref .class)
    (hds : FunctionsRenamed ρ ((Γ.enter false).enter false) ds ds') :
    Agree ρ Φ Same (Eval.declareClass site name (some c) ds)
      (Eval.declareClass site name (some c) ds') := by
  refine (agree_bindName hsite hkeeps _).bind fun Ψ hΨ _ _ _ => ?_
  refine (agree_newScope (hsite.mono hΨ) false).bind fun Θ hΘ r r' ⟨hsame, hr⟩ => ?_
  rw [hsame]
  refine (agree_defineWord hr.here (by decide) _).bind fun Λ hΛ _ _ _ => ?_
  exact agree_bindClass (((hsite.mono hΨ).mono hΘ).mono hΛ) hkeeps (some c) (hr.mono hΛ) hds

end

/-! ### Calls and modules -/

theorem agree_checkCall (callee : Value) (paren : Token) (found : Nat) :
    Agree ρ Φ Same (Eval.checkCall callee paren found) (Eval.checkCall callee paren found) := by
  refine .looking fun Ψ hΨ w w' hw => ?_
  rw [hw.arity?]
  cases w.arity? callee with
  | none => exact agree_fail _ _
  | some expected =>
      by_cases h : found ≠ expected
      · simp only [h, ne_eq, not_false_eq_true, if_true]
        exact agree_fail _ _
      · simp only [h, if_false]
        exact .pure fun _ _ => rfl

theorem agree_readModule (token : Token) (name : String) (e : FileEntry) :
    Agree ρ Φ Same (Eval.readModule token name e) (Eval.readModule token name e) := by
  cases e with
  | file bytes =>
      unfold Eval.readModule
      cases h : Text.decode? bytes with
      | some s =>
          simp only [h]
          exact .pure fun _ _ => rfl
      | none =>
          simp only [h]
          exact agree_crash _
  | unreadable reason => exact agree_fail _ _
  | directory => exact agree_fail _ _

end Chart
end Renaming
end Treewalk
