import Treewalk.Proofs.Loops.Pairing
import Treewalk.Proofs.Loops.Limits

/-!
# Steps with more scopes

A step of evaluation does the same in worlds of which the second one has scopes more.
-/
namespace Treewalk

/-- A name was not found where it was looked up. -/
def Crash.LookUp : Crash → Prop
  | .missingLocal _ | .shortChain _ => True
  | _ => False

/-- The same fault, but that a look-up that finds nothing may have gone through other scopes. -/
inductive SameFault : Interrupt → Interrupt → Prop
  | error (e : RuntimeError) : SameFault (.error e) (.error e)
  | crash (c : Crash) : SameFault (.crash c) (.crash c)
  | lookUp {c c' : Crash} : c.LookUp → c'.LookUp → SameFault (.crash c) (.crash c')
  | exhausted : SameFault .exhausted .exhausted

/-- The same interrupt, with some signals only. -/
inductive SameInterrupt (allowed : Signal → Prop) : Interrupt → Interrupt → Prop
  | signal {c : Signal} : allowed c → SameInterrupt allowed (.signal c) (.signal c)
  | fault {i i' : Interrupt} : SameFault i i' → SameInterrupt allowed i i'

theorem SameInterrupt.weaken {allowed allowed' : Signal → Prop} {i i' : Interrupt}
    (h : SameInterrupt allowed i i') (ha : ∀ c, allowed c → allowed' c) :
    SameInterrupt allowed' i i' := by
  cases h with
  | signal hc => exact .signal (ha _ hc)
  | fault h => exact .fault h

namespace Pairing
variable {side : Side} {allowed allowed' : Signal → Prop} {Γ Δ : Pairing} {α β γ δ : Type}

/-- The same outcome, unless the limit cut the run short. -/
inductive Outcomes (side : Side) (allowed : Signal → Prop) (Γ : Pairing)
    (R : Pairing → α → β → Prop) : Ending α → Ending β → Prop
  | ok {Δ : Pairing} {a : α} {b : β} {w w' : World} : Γ ≤ Δ → R Δ a b → Δ.Worlds w w' →
      Outcomes side allowed Γ R (.ok a w) (.ok b w')
  | error {Δ : Pairing} {i i' : Interrupt} {w w' : World} : Γ ≤ Δ → SameInterrupt allowed i i' →
      Δ.Worlds w w' → Outcomes side allowed Γ R (.error i w) (.error i' w')
  | cut {r : Ending α} {r' : Ending β} : side.Cut r r' → Outcomes side allowed Γ R r r'

/-- Computations that do the same in worlds of which the second one has scopes more. -/
def Agree (side : Side) (allowed : Signal → Prop) (Γ : Pairing) (R : Pairing → α → β → Prop)
    (p : Eval α) (q : Eval β) : Prop :=
  ∀ Δ, Γ ≤ Δ → ∀ w w', Δ.Worlds w w' → Outcomes side allowed Δ R (p w) (q w')

/-- The same result. -/
def Same : Pairing → α → α → Prop := fun _ => Eq

variable {R : Pairing → α → β → Prop} {S : Pairing → γ → δ → Prop}

namespace Outcomes
variable {r : Ending α} {r' : Ending β}

theorem le (h : Outcomes side allowed Δ R r r') (hle : Γ ≤ Δ) :
    Outcomes side allowed Γ R r r' := by
  cases h with
  | ok hΔ hab hw => exact .ok (le_trans hle hΔ) hab hw
  | error hΔ hi hw => exact .error (le_trans hle hΔ) hi hw
  | cut hc => exact .cut hc

theorem weaken (h : Outcomes side allowed Γ R r r') (ha : ∀ c, allowed c → allowed' c) :
    Outcomes side allowed' Γ R r r' := by
  cases h with
  | ok hΔ hab hw => exact .ok hΔ hab hw
  | error hΔ hi hw => exact .error hΔ (hi.weaken ha) hw
  | cut hc => exact .cut hc

theorem andThen {f : α → Eval γ} {g : β → Eval δ} (h : Outcomes side allowed Γ R r r')
    (hf : ∀ Δ, Γ ≤ Δ → ∀ a b, R Δ a b → ∀ w w', Δ.Worlds w w' →
      Outcomes side allowed Δ S (f a w) (g b w')) :
    Outcomes side allowed Γ S (r.andThen f) (r'.andThen g) := by
  cases h with
  | ok hΔ hab hw => exact (hf _ hΔ _ _ hab _ _ hw).le hΔ
  | error hΔ hi hw => exact .error hΔ hi hw
  | cut hc => exact .cut (hc.imp (fun hr => hr.andThen f) fun hr => hr.andThen g)

end Outcomes

namespace Agree

theorem mono {p : Eval α} {q : Eval β} (h : Agree side allowed Γ R p q) (hle : Γ ≤ Δ) :
    Agree side allowed Δ R p q := fun Θ hΘ => h Θ (le_trans hle hΘ)

theorem weaken {p : Eval α} {q : Eval β} (h : Agree side allowed Γ R p q)
    (ha : ∀ c, allowed c → allowed' c) : Agree side allowed' Γ R p q :=
  fun Δ hΔ w w' hw => (h Δ hΔ w w' hw).weaken ha

theorem pure {a : α} {b : β} (h : ∀ Δ, Γ ≤ Δ → R Δ a b) :
    Agree side allowed Γ R (Pure.pure a : Eval α) (Pure.pure b : Eval β) :=
  fun Δ hΔ _ _ hw => .ok (le_refl Δ) (h Δ hΔ) hw

theorem throw {i i' : Interrupt} (h : SameInterrupt allowed i i') :
    Agree side allowed Γ R (MonadExcept.throw i : Eval α) (MonadExcept.throw i' : Eval β) :=
  fun Δ _ _ _ hw => .error (le_refl Δ) h hw

theorem bind {p : Eval α} {q : Eval β} {f : α → Eval γ} {g : β → Eval δ}
    (hp : Agree side allowed Γ R p q)
    (hf : ∀ Δ, Γ ≤ Δ → ∀ a b, R Δ a b → Agree side allowed Δ S (f a) (g b)) :
    Agree side allowed Γ S (p >>= f) (q >>= g) := by
  intro Δ hΔ w w' hw
  rw [Eval.bind_ending, Eval.bind_ending]
  exact (hp Δ hΔ w w' hw).andThen fun Θ hΘ a b hab =>
    hf Θ (le_trans hΔ hΘ) a b hab Θ (le_refl Θ)

theorem map {p : Eval α} {q : Eval β} {f : α → γ} {g : β → δ} (h : Agree side allowed Γ R p q)
    (hf : ∀ Δ a b, R Δ a b → S Δ (f a) (g b)) :
    Agree side allowed Γ S (f <$> p) (g <$> q) := by
  intro Δ hΔ w w' hw
  rw [← bind_pure_comp, ← bind_pure_comp, Eval.bind_ending, Eval.bind_ending]
  exact (h Δ hΔ w w' hw).andThen fun Θ _ a b hab _ _ hw => .ok (le_refl Θ) (hf Θ a b hab) hw

/-- What depends on the world. -/
theorem getting {f : World → Eval α} {g : World → Eval β}
    (h : ∀ Δ, Γ ≤ Δ → ∀ w w', Δ.Worlds w w' → Outcomes side allowed Δ R (f w w) (g w' w')) :
    Agree side allowed Γ R (get >>= f) (get >>= g) := h

/-- What depends on the world, but in the same way. -/
theorem looking {f : World → Eval α} {g : World → Eval β}
    (h : ∀ Δ, Γ ≤ Δ → ∀ w w', Δ.Worlds w w' → Agree side allowed Δ R (f w) (g w')) :
    Agree side allowed Γ R (get >>= f) (get >>= g) :=
  fun Δ hΔ w w' hw => h Δ hΔ w w' hw Δ (le_refl Δ) w w' hw

theorem modify {f g : World → World}
    (h : ∀ Δ, Γ ≤ Δ → ∀ w w', Δ.Worlds w w' → Δ.Worlds (f w) (g w')) :
    Agree side allowed Γ Same (modify f : Eval Unit) (modify g : Eval Unit) :=
  fun Δ hΔ w w' hw => .ok (le_refl Δ) rfl (h Δ hΔ w w' hw)

end Agree

/-! ### Failures and names -/

theorem agree_fail (token : Token) (cause : RuntimeCause) :
    Agree side allowed Γ R (Eval.fail token cause : Eval α) (Eval.fail token cause : Eval β) :=
  .throw (.fault (.error _))

theorem agree_crash (c : Crash) :
    Agree side allowed Γ R (Eval.crash c : Eval α) (Eval.crash c : Eval β) :=
  .throw (.fault (.crash c))

theorem agree_ofOperator (token : Token) (r : Except OperatorFailure Value) :
    Agree side allowed Γ Same (Eval.ofOperator token r) (Eval.ofOperator token r) := by
  cases r with
  | ok v => exact .pure fun _ _ => rfl
  | error e =>
      cases e with
      | error cause => exact agree_fail token cause
      | crash c => exact agree_crash c

/-- A scope that both have, in which code runs. -/
theorem agree_newScope {f : Shift} {p p' : Ref .scope} (h : Γ.Sees f p p') :
    Agree side allowed Γ
      (fun Δ r r' => Δ.Sees f.inside r r' ∧ Δ.pair r r' ∧ Δ.plain r)
      (Eval.newScope p) (Eval.newScope p') := by
  intro Δ hΔ w w' hw
  have hle := le_both Δ True w.scopes.next w'.scopes.next (some p) (some p')
  have hΘ := hw.extend hle (hw.scopes.both True (some p) (some p'))
  exact .ok hle ⟨sees_both (h.mono hΔ), .inr ⟨rfl, rfl⟩, .inr ⟨trivial, rfl⟩⟩ hΘ

/-- A scope that only the second world has, before something that both do. -/
theorem agree_extraScope {f : Shift} {r p' : Ref .scope} {p : Eval α}
    {q : Ref .scope → Eval β} (hsees : Γ.Sees f r p') (hplain : Γ.plain r)
    (h : ∀ Δ, Γ ≤ Δ → ∀ r', Δ.Sees f.under r r' → Agree side allowed Δ R p (q r')) :
    Agree side allowed Γ R p (Eval.newScope p' >>= q) := by
  intro Δ hΔ w w' hw
  have hle := le_extra Δ w'.scopes.next p'
  have hΘ := hw.extend hle (hw.scopes.extra p')
  have hunder := Sees.under (hle.plain (hΔ.plain hplain)) (.inr ⟨rfl, rfl⟩)
    ((hsees.mono hΔ).mono hle)
  exact (h _ (le_trans hΔ hle) _ hunder _ (le_refl _) _ _ hΘ).le hle

/-- A scope for a receiver or a superclass, before something that both do. -/
theorem agree_freshScope {f : Shift} {p p' : Ref .scope} {k : Ref .scope → Eval α}
    {k' : Ref .scope → Eval β} (hsees : Γ.Sees f p p') (name : String) (v : Value)
    (h : ∀ Δ, Γ ≤ Δ → ∀ r r', Δ.Sees f.inside r r' → Agree side allowed Δ R (k r) (k' r')) :
    Agree side allowed Γ R
      (Eval.newScope p >>= fun r => Eval.define r name v >>= fun _ => k r)
      (Eval.newScope p' >>= fun r => Eval.define r name v >>= fun _ => k' r) := by
  intro Δ hΔ w w' hw
  have hle := le_both Δ False w.scopes.next w'.scopes.next (some p) (some p')
  have hΘ := hw.extend hle (hw.scopes.fresh (some p) (some p') name v)
  have hk := h _ (le_trans hΔ hle) w.scopes.next w'.scopes.next (sees_both (hsees.mono hΔ))
  exact (hk _ (le_refl _) _ _ hΘ).le hle

/-- A name that is an identifier is bound. -/
theorem agree_define {r r' : Ref .scope} (h : Γ.pair r r') {name : String}
    (hname : TokenKind.ofWord name = .identifier) (v : Value) :
    Agree side allowed Γ Same (Eval.define r name v) (Eval.define r' name v) :=
  .modify fun _ hΔ _ _ hw =>
    hw.extend (le_refl _) (hw.scopes.define (hΔ.pair h) fun _ _ => Scopes.held_define (.inl hname))

/-- A module is bound where code runs. -/
theorem agree_defineModule {r r' : Ref .scope} (h : Γ.pair r r') (hplain : Γ.plain r)
    (name : String) (m : Ref .module) :
    Agree side allowed Γ Same (Eval.define r name (.module m)) (Eval.define r' name (.module m)) :=
  .modify fun _ hΔ _ _ hw =>
    have hheld := (hw.scopes.plain (hΔ.plain hplain)).2
    hw.extend (le_refl _)
      (hw.scopes.define (hΔ.pair h) fun _ _ => Scopes.held_define (.inr ⟨hheld, m, rfl⟩))

theorem agree_ancestor {f : Shift} {r r' : Ref .scope} (h : Γ.Sees f r r') (hops : Nat) :
    Agree side allowed Γ Pairing.pair (Eval.ancestor r hops) (Eval.ancestor r' (f hops)) := by
  refine .looking fun Δ hΔ w w' hw => ?_
  have hrel := hw.scopes.ancestor? (h.mono hΔ) hops
  revert hrel
  generalize w.scopes.ancestor? hops r = a
  generalize w'.scopes.ancestor? (f hops) r' = a'
  intro hrel
  cases hrel with
  | some hpair => exact .pure fun _ hΘ => hΘ.pair hpair
  | none => exact .throw (.fault (.lookUp trivial trivial))

theorem agree_loadAt {f : Shift} {r r' : Ref .scope} (h : Γ.Sees f r r') (hops : Nat)
    (name : String) :
    Agree side allowed Γ Same (Eval.loadAt r hops name) (Eval.loadAt r' (f hops) name) := by
  refine (agree_ancestor h hops).bind fun Δ _ a a' ha => .looking fun Θ hΘ w w' hw => ?_
  rw [hw.scopes.find? (hΘ.pair ha)]
  cases w.scopes.find? a name with
  | some v => exact .pure fun _ _ => rfl
  | none => exact agree_crash _

section
variable {f : Shift} {site site' : Site} (hsite : Γ.Sites f site site')
include hsite

theorem agree_read (use : NameUse) :
    Agree side allowed Γ Same (Eval.read site use) (Eval.read site' (use.shift f)) := by
  unfold Eval.read
  rw [NameUse.hops_shift, NameUse.name_shift]
  cases use.hops with
  | some hops => exact agree_loadAt hsite.sees hops _
  | none =>
      refine .looking fun Δ hΔ w w' hw => ?_
      have hi := hw.interpreters.get site.home
      have hholder := hw.scopes.holder? hi.pair hi.parent hi.parent' use.name.lexeme
      rw [hsite.home]
      unfold Scopes.load? World.globals
      revert hholder
      generalize w.scopes.holder? _ _ = h
      generalize w'.scopes.holder? _ _ = h'
      intro hholder
      cases hholder with
      | none => exact agree_fail _ _
      | some hpair =>
          simp only [Option.bind_some, hw.scopes.find? hpair]
          cases w.scopes.find? _ use.name.lexeme with
          | some v => exact .pure fun _ _ => rfl
          | none => exact agree_fail _ _

theorem agree_assign (use : NameUse) (hname : TokenKind.ofWord use.name.lexeme = .identifier)
    (v : Value) :
    Agree side allowed Γ Same (Eval.assign site use v) (Eval.assign site' (use.shift f) v) := by
  unfold Eval.assign
  rw [NameUse.hops_shift, NameUse.name_shift]
  cases use.hops with
  | some hops =>
      exact (agree_ancestor hsite.sees hops).bind fun Δ _ a a' ha => agree_define ha hname v
  | none =>
      refine .getting fun Δ hΔ w w' hw => ?_
      have hi := hw.interpreters.get site.home
      have hholder := hw.scopes.holder? hi.pair hi.parent hi.parent' use.name.lexeme
      rw [hsite.home]
      unfold Scopes.store? World.globals
      revert hholder
      generalize w.scopes.holder? _ _ = h
      generalize w'.scopes.holder? _ _ = h'
      intro hholder
      cases hholder with
      | none => exact agree_fail (R := Same) _ _ Δ (le_refl Δ) w w' hw
      | some hpair => exact agree_define hpair hname v Δ (le_refl Δ) w w' hw

end

/-! ### Objects -/

theorem agree_newFunction {g g' : Closure} (h : Γ.Functions g g') :
    Agree side allowed Γ Same (Eval.newFunction g) (Eval.newFunction g') := by
  intro Δ hΔ w w' hw
  refine .ok (le_refl Δ) ?_ { hw with functions := hw.functions.add (h.mono hΔ) }
  exact congrArg Value.function hw.functions.next.symm

theorem agree_newClass {c c' : ClassObject} (h : Γ.Classes c c') :
    Agree side allowed Γ Same (Eval.newClass c) (Eval.newClass c') := by
  intro Δ hΔ w w' hw
  refine .ok (le_refl Δ) ?_ { hw with classes := hw.classes.add (h.mono hΔ) }
  exact congrArg Value.class hw.classes.next.symm

theorem agree_newInstance (c : Ref .class) :
    Agree side allowed Γ Same (Eval.newInstance c) (Eval.newInstance c) := by
  intro Δ hΔ w w' hw
  refine .ok (le_refl Δ) ?_ { hw with instances := ?_ }
  · exact congrArg Arena.next hw.instances.symm
  · change w'.instances.add _ = w.instances.add _
    rw [hw.instances]

theorem agree_bound {g g' : Closure} (h : Γ.Methods g g') (receiver : Ref .instance) :
    Agree side allowed Γ (fun Δ => Δ.Functions) (Eval.bound g receiver)
      (Eval.bound g' receiver) := by
  obtain ⟨f, hsees, hd⟩ := h.declaration
  refine agree_freshScope hsees "this" _ fun Δ _ r r' hr => .pure fun Θ hΘ => ?_
  exact ⟨h.home, h.isInitializer, f.inside, hr.mono hΘ, fun _ => rfl, hd⟩

/-- A method, bound to its receiver and kept. -/
theorem agree_boundFunction {g g' : Closure} (h : Γ.Methods g g') (receiver : Ref .instance) :
    Agree side allowed Γ Same (do Eval.newFunction (← Eval.bound g receiver))
      (do Eval.newFunction (← Eval.bound g' receiver)) :=
  (agree_bound h receiver).bind fun _ _ _ _ hg => agree_newFunction hg

theorem agree_property (object : Value) (name : Token) :
    Agree side allowed Γ Same (Eval.property object name) (Eval.property object name) := by
  refine .looking fun Δ hΔ w w' hw => ?_
  cases object with
  | «instance» r =>
      dsimp only
      rw [hw.instances]
      cases (w.instances.get r).fields.find? name.lexeme with
      | some v => exact .pure fun _ _ => rfl
      | none =>
          rcases hw.method? (w.instances.get r).classRef name.lexeme with
            ⟨hm, hm'⟩ | ⟨g, g', hm, hm', hg⟩
          · simp only [hm, hm']
            exact agree_fail _ _
          · simp only [hm, hm']
            exact agree_boundFunction hg r
  | module r =>
      dsimp only
      rw [hw.modules]
      unfold World.globals
      rw [hw.scopes.find? (hw.interpreters.get _).pair]
      cases w.scopes.find? _ name.lexeme with
      | some v => exact .pure fun _ _ => rfl
      | none => exact agree_fail _ _
  | _ => exact agree_fail _ _

theorem agree_checkFields (object : Value) (name : Token) :
    Agree side allowed Γ Same (Eval.checkFields object name) (Eval.checkFields object name) := by
  cases object with
  | «instance» r => exact .pure fun _ _ => rfl
  | module r => exact .pure fun _ _ => rfl
  | _ => exact agree_fail _ _

theorem agree_setProperty (object : Value) {name : Token}
    (hname : TokenKind.ofWord name.lexeme = .identifier) (v : Value) :
    Agree side allowed Γ Same (Eval.setProperty object name v)
      (Eval.setProperty object name v) := by
  refine .getting fun Δ hΔ w w' hw => ?_
  cases object with
  | «instance» r =>
      dsimp only
      rw [hw.instances]
      exact .ok (le_refl Δ) rfl { hw with instances := rfl }
  | module r =>
      dsimp only
      have hpair := (hw.interpreters.get (w.modules.get r).home).pair
      rw [hw.modules]
      unfold World.globals
      rw [hw.scopes.contains hpair]
      by_cases hc : w.scopes.contains (w.interpreters.get (w.modules.get r).home).globals
          name.lexeme = true
      · simp only [hc, if_true]
        exact agree_define hpair hname v Δ (le_refl Δ) w w' hw
      · simp only [hc]
        exact agree_fail (R := Same) _ _ Δ (le_refl Δ) w w' hw
  | _ => exact agree_fail (R := Same) _ _ Δ (le_refl Δ) w w' hw

/-- A look-up finds a value or nothing. -/
theorem loadAt_ends (r : Ref .scope) (hops : Nat) (name : String) (w : World) :
    (∃ v, Eval.loadAt r hops name w = .ok v w) ∨
      ∃ c : Crash, c.LookUp ∧ Eval.loadAt r hops name w = .error (.crash c) w := by
  cases ha : w.scopes.ancestor? hops r with
  | none =>
      refine .inr ⟨.shortChain hops, trivial, ?_⟩
      unfold Eval.loadAt
      rw [Eval.bind_run, Eval.ancestor_run, ha]
  | some a =>
      rw [Eval.loadAt_run r hops name ha]
      cases w.scopes.find? a name with
      | some v => exact .inl ⟨v, rfl⟩
      | none => exact .inr ⟨.missingLocal name, trivial, rfl⟩

/-- Where no superclass is found, `super` fails to find it. -/
theorem superMethod_missing {site : Site} {use : NameUse} {hops : Nat} (hu : use.hops = some hops)
    {w : World} (hnone : ∀ a c, w.scopes.ancestor? hops site.scope = some a →
      w.scopes.find? a "super" ≠ some (.class c)) (method : Token) :
    ∃ c : Crash, c.LookUp ∧ Eval.superMethod site use method w = .error (.crash c) w := by
  unfold Eval.superMethod
  simp only [hu, Eval.bind_run]
  rcases loadAt_ends site.scope hops "super" w with ⟨v, hv⟩ | ⟨c, hc, hv⟩
  · rw [hv]
    dsimp only
    rcases loadAt_ends site.scope (hops - 1) "this" w with ⟨v', hv'⟩ | ⟨c, hc, hv'⟩
    · rw [hv']
      dsimp only
      cases v with
      | «class» c =>
          cases ha : w.scopes.ancestor? hops site.scope with
          | none =>
              unfold Eval.loadAt at hv
              rw [Eval.bind_run, Eval.ancestor_run, ha] at hv
              cases hv
          | some a =>
              rw [Eval.loadAt_run _ _ _ ha] at hv
              cases hf : w.scopes.find? a "super" with
              | none =>
                  rw [hf] at hv
                  cases hv
              | some u =>
                  rw [hf] at hv
                  cases hv
                  exact (hnone a c ha hf).elim
      | _ => exact ⟨.missingLocal "super", trivial, rfl⟩
    · rw [hv']
      exact ⟨c, hc, rfl⟩
  · rw [hv]
    exact ⟨c, hc, rfl⟩

section
variable {f : Shift} {site site' : Site} (hsite : Γ.Sites f site site')
include hsite

/-- The receiver stands one scope inside the superclass in both worlds, or an import binds the name
and there is no superclass. -/
theorem agree_superMethod (use : NameUse) (method : Token) :
    Agree side allowed Γ Same (Eval.superMethod site use method)
      (Eval.superMethod site' (use.shift f) method) := by
  cases hu : use.hops with
  | none =>
      unfold Eval.superMethod
      rw [NameUse.hops_shift, hu]
      exact agree_crash _
  | some hops =>
      intro Δ hΔ w w' hw
      have hsees := hsite.sees.mono hΔ
      rcases hw.scopes.aligned hsees hops with hstep | hplain
      · suffices Agree side allowed Δ Same (Eval.superMethod site use method)
            (Eval.superMethod site' (use.shift f) method) from this Δ (le_refl Δ) w w' hw
        unfold Eval.superMethod
        rw [NameUse.hops_shift, hu]
        refine (agree_loadAt hsees hops _).bind fun Θ hΘ superclass superclass' hsuperclass => ?_
        rw [← hstep]
        refine (agree_loadAt (hsees.mono hΘ) _ _).bind fun Θ' _ receiver receiver' hreceiver => ?_
        cases hsuperclass
        cases hreceiver
        cases superclass with
        | «class» c =>
            cases receiver with
            | «instance» i =>
                refine .looking fun Δ' hΔ' w w' hw => ?_
                rcases hw.method? c method.lexeme with ⟨hm, hm'⟩ | ⟨g, g', hm, hm', hg⟩
                · simp only [hm, hm']
                  exact agree_fail _ _
                · simp only [hm, hm']
                  exact agree_boundFunction hg i
            | _ => exact agree_crash _
        | _ => exact agree_crash _
      · have hnone : ∀ a c, w.scopes.ancestor? hops site.scope = some a →
            w.scopes.find? a "super" ≠ some (.class c) := by
          intro a c ha hc
          have hheld := congrArg Prod.snd (hw.scopes.plain (hplain a ha)).2
          exact nomatch hheld.symm.trans (Scopes.superclass?_eq_some.mpr hc)
        have hnone' : ∀ a c, w'.scopes.ancestor? (f hops) site'.scope = some a →
            w'.scopes.find? a "super" ≠ some (.class c) := by
          intro a' c ha' hc
          have hrel := hw.scopes.ancestor? hsees hops
          rw [ha'] at hrel
          cases ha : w.scopes.ancestor? hops site.scope with
          | none =>
              rw [ha] at hrel
              cases hrel
          | some a =>
              rw [ha] at hrel
              cases hrel with
              | some hpair =>
                  rw [hw.scopes.find? hpair] at hc
                  exact hnone a c ha hc
        have hu' : (use.shift f).hops = some (f hops) := by
          rw [NameUse.hops_shift, hu]
          rfl
        obtain ⟨c, hc, hr⟩ := superMethod_missing hu hnone method
        obtain ⟨c', hc', hr'⟩ := superMethod_missing hu' hnone' method
        rw [hr, hr']
        exact .error (le_refl Δ) (.fault (.lookUp hc hc')) hw

/-- The name of a declaration, in a scope that both have. -/
theorem agree_bindName (hopen : f 0 = 0) {name : String}
    (hname : TokenKind.ofWord name = .identifier) (v : Value) :
    Agree side allowed Γ Same (Eval.define site.scope name v) (Eval.define site'.scope name v) := by
  intro Δ hΔ w w' hw
  have hpair := hw.scopes.pair_of_sees (hsite.sees.mono hΔ) hopen
  exact agree_define hpair hname v Δ (le_refl Δ) w w' hw

theorem agree_superclass (use : NameUse) :
    Agree side allowed Γ Same (Eval.superclass site use)
      (Eval.superclass site' (use.shift f)) := by
  refine (agree_read hsite use).bind fun Δ _ v v' hv => ?_
  cases hv
  cases v with
  | «class» r => exact .pure fun _ _ => rfl
  | _ => exact agree_fail _ _

/-- Classes have the same methods, which see the scopes of the class statement or the one for the
superclass. -/
theorem agree_newMethods {scope scope' : Ref .scope} {g : Shift} (hsees : Γ.Sees g scope scope')
    (hopen : f 0 = 0) {name : Token} (hname : TokenKind.ofWord name.lexeme = .identifier)
    {parent : Option (Ref .class)} {ds ds' : List FunctionDecl}
    (hd : FunctionsWrittenOut g.inside.inside ds ds') :
    Agree side allowed Γ Same
      (do
        let c ← Eval.newClass ⟨name.lexeme, parent, ds.foldl (fun ms d =>
          ms.insert d.displayName ⟨d, scope, site.home, d.displayName == "init"⟩) {}⟩
        Eval.define site.scope name.lexeme c)
      (do
        let c ← Eval.newClass ⟨name.lexeme, parent, ds'.foldl (fun ms d =>
          ms.insert d.displayName ⟨d, scope', site'.home, d.displayName == "init"⟩) {}⟩
        Eval.define site'.scope name.lexeme c) := by
  refine Agree.bind (R := Same) (agree_newClass ⟨rfl, rfl, ?_⟩) fun Δ hΔ c c' hc => ?_
  · refine rel_methods (hd.forall₂.imp fun _ _ hd => ⟨hd.displayName, hsite.home, ?_, g, hsees, hd⟩)
      fun _ => .none
    exact congrArg (· == "init") hd.displayName
  · cases hc
    exact agree_bindName (hsite.mono hΔ) hopen hname c

end

theorem agree_declareClass {f : Shift} {site site' : Site} (hsite : Γ.Sites f site site')
    (hopen : f 0 = 0) {name : Token} (hname : TokenKind.ofWord name.lexeme = .identifier)
    (parent : Option (Ref .class)) {ds ds' : List FunctionDecl}
    (hroot : parent = none → FunctionsWrittenOut f.inside.inside ds ds')
    (hderived : parent.isSome = true → FunctionsWrittenOut f.inside.inside.inside ds ds') :
    Agree side allowed Γ Same (Eval.declareClass site name parent ds)
      (Eval.declareClass site' name parent ds') := by
  refine (agree_bindName hsite hopen hname _).bind fun Δ hΔ _ _ _ => ?_
  have hsite := hsite.mono hΔ
  cases parent with
  | none => exact agree_newMethods hsite hsite.sees hopen hname (hroot rfl)
  | some c =>
      refine agree_freshScope hsite.sees "super" _ fun Θ hΘ r r' hr => ?_
      exact agree_newMethods (hsite.mono hΘ) hr hopen hname (hderived rfl)

/-! ### Calls and modules -/

theorem agree_checkCall (callee : Value) (paren : Token) (found : Nat) :
    Agree side allowed Γ Same (Eval.checkCall callee paren found)
      (Eval.checkCall callee paren found) := by
  refine .looking fun Δ hΔ w w' hw => ?_
  rw [hw.arity?]
  cases w.arity? callee with
  | none => exact agree_fail _ _
  | some expected =>
      by_cases h : found ≠ expected
      · simp only [h, ne_eq, not_false_eq_true, if_true]
        exact agree_fail _ _
      · simp only [h, if_false]
        exact .pure fun _ _ => rfl

theorem agree_readModule (token : Token) (name : String) (e : FileEntry) :
    Agree side allowed Γ Same (Eval.readModule token name e) (Eval.readModule token name e) := by
  cases e with
  | file bytes =>
      unfold Eval.readModule
      cases h : Text.decode? bytes with
      | some s =>
          simp only [h]
          exact .pure fun _ _ => rfl
      | none =>
          simp only [h]
          exact agree_crash _
  | unreadable reason => exact agree_fail _ _
  | directory => exact agree_fail _ _

end Pairing
end Treewalk
