import Treewalk.Proofs.Methods.Sessions

/-!
# Bound methods

A method that is read from an instance or through `super` becomes a function of its own, bound to
the instance: the scope it is called in holds the receiver. This receiver never changes, and the
function is an initializer just if its name is `init`.
-/
namespace Treewalk

namespace World
variable {w w' : World} {r : Ref .function} {i : Ref .instance}

/-- A function is a method bound to an instance: its scope holds the instance as the receiver. -/
structure BoundTo (w : World) (r : Ref .function) (i : Ref .instance) : Prop where
  lt : r.index < w.functions.size
  receiver : w.scopes.find? (w.functions.get r).scope "this" = some (.instance i)

theorem BoundTo.receiver? (h : w.BoundTo r i) :
    w.scopes.receiver? (w.functions.get r).scope = some i := Scopes.receiver?_eq_some.mpr h.receiver

/-- A bound method is an initializer just if it is named so. -/
theorem Orderly.isInitializer_eq (hw : w.Orderly) (h : w.BoundTo r i) :
    (w.functions.get r).isInitializer = ((w.functions.get r).declaration.displayName == "init") := by
  rcases (hw.functions r h.lt).kind with ⟨-, hfree⟩ | ⟨hinit, -⟩
  · exact nomatch (congrArg Prod.fst hfree).symm.trans h.receiver?
  · exact hinit

/-- A function stays bound to what it was bound to. -/
theorem Retains.boundTo_iff (h : w.Retains w') (hw : w.Orderly)
    (hr : r.index < w.functions.size) : w'.BoundTo r i ↔ w.BoundTo r i := by
  have hscope := (hw.functions r hr).lt
  have hreceiver : w'.scopes.receiver? (w'.functions.get r).scope =
      w.scopes.receiver? (w.functions.get r).scope := by
    rw [h.function r hr, h.receiver? hscope]
  constructor
  · intro hb
    exact ⟨hr, Scopes.receiver?_eq_some.mp (hreceiver.symm.trans hb.receiver?)⟩
  · intro hb
    refine ⟨Nat.lt_of_lt_of_le hr h.functions, Scopes.receiver?_eq_some.mp ?_⟩
    exact hreceiver.trans hb.receiver?

/-- The nearest definition of a method for a class has become a function bound to an instance. -/
def Binds (w : World) (c : Ref .class) (name : String) (i : Ref .instance) (v : Value)
    (w' : World) : Prop :=
  ∃ k f r, w.Nearest name c k f ∧ v = .function r ∧ w'.BoundTo r i ∧
    (w'.functions.get r).declaration = f.declaration ∧ f.declaration.displayName = name

end World

namespace Eval
variable {w w' : World} {v : Value}

/-- A closure for the instance is made, and a function of it. -/
theorem bound_run (f : Closure) (i : Ref .instance) (w : World) :
    (do newFunction (← bound f i)) w = .ok (.function w.functions.next)
      { w with
        scopes := (w.scopes.addChild (some f.scope)).define w.scopes.next "this" (.instance i)
        functions := w.functions.add { f with scope := w.scopes.next } } := rfl

/-- The nearest definition is bound, or there is none. -/
theorem bind_cases (hw : w.Orderly) (c : Ref .class) (i : Ref .instance) (name : Token) :
    (∃ v w', (match w.method? c name.lexeme with
      | some f => do newFunction (← bound f i)
      | none => fail name (.undefinedProperty name.lexeme)) w = .ok v w' ∧
        w.Binds c name.lexeme i v w') ∨
    (match w.method? c name.lexeme with
      | some f => do newFunction (← bound f i)
      | none => fail name (.undefinedProperty name.lexeme)) w =
        .error (.error ⟨name, .undefinedProperty name.lexeme⟩) w ∧
      ∀ k, w.Inherits c k → (w.classes.get k).methods.find? name.lexeme = none := by
  cases hm : w.method? c name.lexeme with
  | none => exact .inr ⟨rfl, hw.aged.method?_eq_none.mp hm⟩
  | some f =>
      obtain ⟨k, hk⟩ := hw.aged.method?_eq_some.mp hm
      refine .inl ⟨_, _, bound_run f i w, k, f, _, hk, rfl, ⟨?_, ?_⟩, ?_, ?_⟩
      · exact Nat.lt_of_lt_of_eq (Nat.lt_succ_self _) (Arena.size_add ..).symm
      · simp only [Arena.get_add_next, Scopes.find?_next, if_true]
      · simp only [Arena.get_add_next]
      · exact (hw.methods k _ f hk.defined).key

/-- What is read from an instance is a field, or else a method that is bound to it. -/
theorem property_instance (hw : w.Orderly) {i : Ref .instance} {name : Token}
    (h : property (.instance i) name w = .ok v w') :
    (w.instances.get i).fields.find? name.lexeme = some v ∧ w' = w ∨
      (w.instances.get i).fields.find? name.lexeme = none ∧
        w.Binds (w.instances.get i).classRef name.lexeme i v w' := by
  unfold property at h
  rw [get_run] at h
  cases hf : (w.instances.get i).fields.find? name.lexeme with
  | some u =>
      simp only [hf] at h
      cases h
      exact .inl ⟨rfl, rfl⟩
  | none =>
      simp only [hf] at h
      rcases bind_cases hw (w.instances.get i).classRef i name with ⟨u, w'', hr, hb⟩ | ⟨hr, -⟩
      · cases hr.symm.trans h
        exact .inr ⟨rfl, hb⟩
      · cases hr.symm.trans h

/-- What `super` yields when the superclass and the receiver are where it looks for them. -/
theorem superMethod_run {site : Site} {use : NameUse} {hops : Nat} (hu : use.hops = some hops)
    {a b : Ref .scope} {c : Ref .class} {i : Ref .instance}
    (hb : w.scopes.ancestor? hops site.scope = some b)
    (hc : w.scopes.find? b "super" = some (.class c))
    (ha : w.scopes.ancestor? (hops - 1) site.scope = some a)
    (hi : w.scopes.find? a "this" = some (.instance i)) (method : Token) :
    superMethod site use method w =
      (match w.method? c method.lexeme with
        | some f => do newFunction (← bound f i)
        | none => fail method (.undefinedProperty method.lexeme)) w := by
  unfold superMethod
  simp only [hu, bind_run, loadAt_run _ _ _ hb, hc, loadAt_run _ _ _ ha, hi]
  rfl

/-- Where there is no superclass, `super` crashes. -/
theorem superMethod_crash {site : Site} {use : NameUse} {hops : Nat} (hu : use.hops = some hops)
    {b : Ref .scope} (hb : w.scopes.ancestor? hops site.scope = some b)
    (hc : w.scopes.superclass? b = none) (method : Token) :
    ∃ x, superMethod site use method w = .error (.crash x) w := by
  unfold superMethod
  simp only [hu, bind_run, loadAt_run _ _ _ hb]
  cases hv : w.scopes.find? b "super" with
  | none => exact ⟨_, rfl⟩
  | some v =>
      rcases loadAt_cases site.scope (hops - 1) "this" w with ⟨a, i, -, -, hr⟩ | ⟨x, hr⟩
      · simp only [hr]
        cases v with
        | «class» c => exact nomatch hc.symm.trans (Scopes.superclass?_eq_some.mpr hv)
        | _ => exact ⟨_, rfl⟩
      · simp only [hr]
        exact ⟨x, rfl⟩

/-- What `super` yields is a method of the superclass that is bound to the receiver. -/
theorem superMethod_ok (hw : w.Orderly) {site : Site} {use : NameUse} {method : Token}
    (h : superMethod site use method w = .ok v w') :
    ∃ hops c i, use.hops = some hops ∧
      loadAt site.scope hops "super" w = .ok (.class c) w ∧
      loadAt site.scope (hops - 1) "this" w = .ok (.instance i) w ∧
      w.Binds c method.lexeme i v w' := by
  cases hu : use.hops with
  | none =>
      unfold superMethod at h
      rw [hu] at h
      cases h
  | some hops =>
      have h' := h
      unfold superMethod at h'
      simp only [hu] at h'
      obtain ⟨cv, t, hc, h'⟩ := Watched.bind_ok h'
      obtain ⟨iv, u, hi, h'⟩ := Watched.bind_ok h'
      rcases loadAt_cases site.scope hops "super" w with ⟨b, cv', hb, hcb, hr⟩ | ⟨x, hr⟩
      · cases hr.symm.trans hc
        rcases loadAt_cases site.scope (hops - 1) "this" w with ⟨a, iv', ha, hia, hr'⟩ | ⟨x, hr'⟩
        · cases hr'.symm.trans hi
          cases cv with
          | «class» c =>
              cases iv with
              | «instance» i =>
                  refine ⟨hops, c, i, rfl, hc, hi, ?_⟩
                  rw [superMethod_run hu hb hcb ha hia] at h
                  rcases bind_cases hw c i method with ⟨y, w'', hr, hbinds⟩ | ⟨hr, -⟩
                  · cases hr.symm.trans h
                    exact hbinds
                  · cases hr.symm.trans h
              | _ => cases h'
          | _ => cases h'
        · cases hr'.symm.trans hi
      · cases hr.symm.trans hc

end Eval

/-! ### Without notes -/

/-- What goes on steadily when it is watched does so unwatched. -/
theorem Steady.unwatched {α : Type} {p : Watching α} {q : Eval α} {s : Watched World Event}
    {Q : α → Watched World Event → Prop} (h : Steady p s Q) (hpq : Watched.Erases p q) {a : α}
    {w : World} (hq : q s.state = .ok a w) :
    ∃ notes, Proceeds s ⟨w, notes⟩ ∧ Q a ⟨w, notes⟩ := by
  have hs := hpq s
  unfold Steady Yields at h
  cases hp : p s with
  | ok b t =>
      rw [hp] at hs h
      cases hs.trans hq
      exact ⟨t.notes, h⟩
  | error e t =>
      rw [hp] at hs
      cases hs.trans hq

end Treewalk
