import Treewalk.Proofs.Methods.Binding

/-!
# Initializers

A call of an initializer returns its receiver: whatever its body does, the receiver is read from the
scope that the method was bound in, and nothing that runs there can bind `this` in it. A call of a
class returns a new instance, for which the nearest initializer was called once.
-/
namespace Treewalk

namespace Eval
variable {patience levels : Nat} {site : Site} {w w' : World} {v : Value}

theorem atCall_ok {α : Type} {paren : Token} {p : Eval α} {a : α}
    (h : atCall paren p w = .ok a w') : p w = .ok a w' := by
  unfold atCall at h
  cases hp : p w with
  | ok b t =>
      rw [hp] at h
      exact h
  | error i t =>
      rw [hp] at h
      cases i <;> cases h

/-- A property is read from the value of the object. -/
theorem get_ok {object : Expr} {name : Token}
    (h : expression patience levels site (.get object name) w = .ok v w') :
    ∃ inner o w₁, levels = inner + 1 ∧ expression patience inner site object w = .ok o w₁ ∧
      property o name w₁ = .ok v w' := by
  cases levels with
  | zero => cases h
  | succ inner =>
      rw [expression] at h
      obtain ⟨o, w₁, ho, hp⟩ := Watched.bind_ok h
      exact ⟨inner, o, w₁, rfl, ho, hp⟩

/-- The value of the callee is called with those of the arguments. -/
theorem call_ok {callee : Expr} {paren : Token} {arguments : List Expr}
    (h : expression patience levels site (.call callee paren arguments) w = .ok v w') :
    ∃ inner f w₁ vs w₂, levels = inner + 2 ∧
      expression patience (inner + 1) site callee w = .ok f w₁ ∧
      arguments.mapM (expression patience (inner + 1) site) w₁ = .ok vs w₂ ∧
      callValue (statement patience inner) f vs w₂ = .ok v w' := by
  cases levels with
  | zero => cases h
  | succ levels =>
      rw [expression] at h
      obtain ⟨f, w₁, hf, h⟩ := Watched.bind_ok h
      obtain ⟨vs, w₂, hvs, h⟩ := Watched.bind_ok h
      obtain ⟨_, w₃, hcheck, h⟩ := Watched.bind_ok h
      have hcall := atCall_ok h
      cases levels with
      | zero => cases hf
      | succ inner =>
          obtain rfl : w₃ = w₂ := by
            unfold checkCall at hcheck
            rw [get_run] at hcheck
            cases ha : w₂.arity? f with
            | none =>
                rw [ha] at hcheck
                cases hcheck
            | some expected =>
                rw [ha] at hcheck
                by_cases hne : vs.length ≠ expected
                · simp only [hne, ne_eq, not_false_eq_true, if_true] at hcheck
                  cases hcheck
                · simp only [hne, if_false] at hcheck
                  cases hcheck
                  rfl
          rw [call] at hcall
          exact ⟨inner, f, w₁, vs, w₃, rfl, hf, hvs, hcall⟩

end Eval

namespace World

/-- An instance is not there, nor does anything refer to it. -/
structure Fresh (w : World) (i : Ref .instance) : Prop where
  new : w.instances.size ≤ i.index
  scopes : ∀ r x, w.scopes.find? r x ≠ some (.instance i)
  fields : ∀ j x, (w.instances.get j).fields.find? x ≠ some (.instance i)

theorem Orderly.fresh_next {w : World} (h : w.Orderly) : w.Fresh w.instances.next where
  new := Nat.le_refl _
  scopes r x he := Nat.lt_irrefl _ (h.values r x _ he)
  fields j x he := Nat.lt_irrefl _ (h.fields j x _ he)

/-- A call of a class has made an instance of it. Then either no class from which it inherits
defines an initializer and nothing else was done, or the nearest initializer was bound to the
instance and called, once and last. -/
def Constructs (patience levels : Nat) (w : World) (c : Ref .class) (arguments : List Value)
    (v : Value) (w' : World) : Prop :=
  ∃ i, v = .instance i ∧ w.Fresh i ∧ i.index < w'.instances.size ∧
    (w'.instances.get i).classRef = c ∧
    let made := { w with instances := w.instances.add { classRef := c } }
    ((∀ k, w.Inherits c k → (w.classes.get k).methods.find? "init" = none) ∧ w' = made ∨
      ∃ k f g w₁, w.Nearest "init" c k f ∧ Eval.bound f i made = .ok g w₁ ∧
        Eval.callFunction (Eval.statement patience levels) g arguments w₁ = .ok (.instance i) w')

end World

section
variable {patience levels : Nat} {w w' : World} {v : Value} {vs : List Value}

/-- An initializer that is called returns the receiver that its scope holds. -/
theorem World.Orderly.callFunction (hw : w.Orderly) {f : Closure}
    (hnamed : (Node.function f.declaration).Named) (hvs : ∀ v ∈ vs, w.Made v)
    (h : Eval.callFunction (Eval.statement patience levels) f vs w = .ok v w') :
    w.Retains w' ∧ (f.isInitializer = true → ∀ i, w.scopes.receiver? f.scope = some i →
      v = .instance i) := by
  have hsteady := Watching.callFunction_steady (s := ⟨w, []⟩)
    (levelSteady patience levels).statement hw hnamed hvs
  have herases := Watching.callFunction_erases (Watching.erases patience levels).statement f vs
  obtain ⟨notes, hproceeds, -, hv⟩ := hsteady.unwatched herases h
  exact ⟨hproceeds.retains, hv⟩

/-- A bound method stays bound when it is called, and returns its receiver if it is named `init`. -/
theorem World.BoundTo.call {r : Ref .function} {i : Ref .instance} (hr : w.BoundTo r i)
    (hw : w.Orderly) (hvs : ∀ v ∈ vs, w.Made v)
    (h : Eval.callValue (Eval.statement patience levels) (.function r) vs w = .ok v w') :
    w'.BoundTo r i ∧
      ((w.functions.get r).declaration.displayName = "init" → v = .instance i) := by
  obtain ⟨hretains, hv⟩ := hw.callFunction (hw.function_named r) hvs h
  refine ⟨(hretains.boundTo_iff hw hr.lt).mpr hr, fun hname => hv ?_ i hr.receiver?⟩
  rw [hw.isInitializer_eq hr, hname]
  rfl

/-- A class that is called makes an instance and initializes it. -/
theorem World.Orderly.constructs (hw : w.Orderly) {c : Ref .class} (hvs : ∀ v ∈ vs, w.Made v)
    (h : Eval.callValue (Eval.statement patience levels) (.class c) vs w = .ok v w') :
    w.Constructs patience levels c vs v w' := by
  let made : World := { w with instances := w.instances.add { classRef := c } }
  have hstep : w.Step made := .newInstance c
  have hmade := hw.step hstep
  have hnew : w.instances.next.index < made.instances.size :=
    Nat.lt_of_lt_of_eq (Nat.lt_succ_self _) (Arena.size_add ..).symm
  have hclass : (made.instances.get w.instances.next).classRef = c :=
    congrArg InstanceObject.classRef (Arena.get_add_next ..)
  unfold Eval.callValue at h
  rw [Eval.get_run] at h
  obtain ⟨i, t, hi, h⟩ := Watched.bind_ok h
  cases hi
  cases hm : w.method? c "init" with
  | none =>
      simp only [hm] at h
      cases h
      exact ⟨_, rfl, hw.fresh_next, hnew, hclass, .inl ⟨hw.aged.method?_eq_none.mp hm, rfl⟩⟩
  | some f =>
      simp only [hm] at h
      obtain ⟨g, w₁, hg, h⟩ := Watched.bind_ok h
      obtain ⟨u, w₂, hu, h⟩ := Watched.bind_ok h
      cases h
      obtain ⟨k, hk⟩ := hw.aged.method?_eq_some.mp hm
      have hinherits : made.Inherits (made.instances.get w.instances.next).classRef k := by
        rw [hclass]
        exact hk.inherits.retain hstep.retains
      obtain ⟨notes, hbound, hcallable, hdeclaration, hinitializer, hreceiver⟩ :=
        (Watching.bound_steady (s := ⟨made, []⟩) hmade hnew hinherits hk.defined).unwatched
          Watching.bound_erases hg
      have hinit : g.isInitializer = true := by
        rw [hinitializer, (hw.methods k _ f hk.defined).isInitializer]
        rfl
      have hretains := hstep.retains.trans hbound.retains
      obtain ⟨hcall, hreturned⟩ := hbound.orderly.callFunction hcallable.named
        (fun v hv => (hvs v hv).retain hretains) hu
      obtain rfl := hreturned hinit _ hreceiver
      have hlate := hbound.retains.trans hcall
      refine ⟨_, rfl, hw.fresh_next, Nat.lt_of_lt_of_le hnew hlate.instances, ?_, .inr ?_⟩
      · exact (hlate.classRef _ hnew).trans hclass
      · exact ⟨k, f, g, w₁, hk, hg, hu⟩

/-- An expression is evaluated where code may run. -/
theorem World.Orderly.evaluates {site : Site} {e : Expr} (hw : w.Orderly)
    (hsite : w.Open site.scope) (hn : (Node.expr e).Named)
    (h : Eval.expression patience levels site e w = .ok v w') :
    w'.Orderly ∧ w.Retains w' ∧ w'.Made v := by
  have hsteady := (levelSteady patience levels).expression ⟨w, []⟩ site e hw hsite hn
  obtain ⟨notes, hproceeds, hv⟩ :=
    hsteady.unwatched ((Watching.erases patience levels).expression site e) h
  exact ⟨hproceeds.orderly, hproceeds.retains, hv⟩

theorem World.Orderly.evaluates_all {site : Site} {es : List Expr} (hw : w.Orderly)
    (hsite : w.Open site.scope) (hn : ∀ e ∈ es, (Node.expr e).Named)
    (h : es.mapM (Eval.expression patience levels site) w = .ok vs w') :
    w'.Orderly ∧ w.Retains w' ∧ ∀ v ∈ vs, w'.Made v := by
  have hsteady : Steady (es.mapM (Watching.expression patience levels site)) ⟨w, []⟩
      fun vs t => ∀ v ∈ vs, t.state.Made v :=
    .mapM (fun e he t ht => (levelSteady patience levels).expression t site e ht.orderly
      (hsite.retain ht.retains) (hn e he)) (fun _ _ _ ht hv => hv.retain ht.retains) (.refl hw)
  obtain ⟨notes, hproceeds, hvs⟩ := hsteady.unwatched
    (.mapM ((Watching.erases patience levels).expression site) es) h
  exact ⟨hproceeds.orderly, hproceeds.retains, hvs⟩

end

/-- In every session, a method that is read from an instance or through `super` is bound to this
instance, as is the function that it becomes ever after; a bound method named `init` returns its
receiver whenever a call of it completes; and a call of a class that completes returns a new
instance of it, for which the nearest `init`, if there is one, was called once. -/
theorem initializers_return_receiver (steps : List SessionStep) (patience levels : Nat) :
    (∀ s s', Session.Passes steps s → Session.Passes steps s' → ∀ r i,
      r.index < s.state.functions.size → r.index < s'.state.functions.size →
      (s.state.BoundTo r i ↔ s'.state.BoundTo r i)) ∧
    (∀ site object name w v w',
      .node .reached site (.expr (.get object name)) w ∈ (Session.watch steps).notes →
      Eval.expression patience levels site (.get object name) w = .ok v w' →
      ∃ inner o w₁, levels = inner + 1 ∧
        Eval.expression patience inner site object w = .ok o w₁ ∧ ∀ i, o = .instance i →
          (w₁.instances.get i).fields.find? name.lexeme = some v ∧ w' = w₁ ∨
          (w₁.instances.get i).fields.find? name.lexeme = none ∧
            w₁.Binds (w₁.instances.get i).classRef name.lexeme i v w') ∧
    (∀ site use method w v w',
      .node .reached site (.expr (.super use method)) w ∈ (Session.watch steps).notes →
      Eval.expression patience levels site (.super use method) w = .ok v w' →
      ∃ hops c i, use.hops = some hops ∧ Eval.loadAt site.scope hops "super" w = .ok (.class c) w ∧
        Eval.loadAt site.scope (hops - 1) "this" w = .ok (.instance i) w ∧
        w.Binds c method.lexeme i v w') ∧
    ∀ site callee paren arguments w v w',
      .node .reached site (.expr (.call callee paren arguments)) w ∈ (Session.watch steps).notes →
      Eval.expression patience levels site (.call callee paren arguments) w = .ok v w' →
      ∃ inner f w₁ vs w₂, levels = inner + 2 ∧
        Eval.expression patience (inner + 1) site callee w = .ok f w₁ ∧
        arguments.mapM (Eval.expression patience (inner + 1) site) w₁ = .ok vs w₂ ∧
        (∀ r i, r.index < w.functions.size → (w₁.BoundTo r i ↔ w.BoundTo r i)) ∧
        (∀ r i, f = .function r → w₁.BoundTo r i →
          w'.BoundTo r i ∧ ((w₁.functions.get r).declaration.displayName = "init" →
            v = .instance i)) ∧
        ∀ c, f = .class c → w₂.Constructs patience inner c vs v w' := by
  have hkept := Session.watch_kept steps
  refine ⟨?_, ?_, ?_, ?_⟩
  · intro s s' hs hs' r i hr hr'
    obtain ⟨hw, hretains⟩ := hs.orderly
    obtain ⟨hw', hretains'⟩ := hs'.orderly
    exact (hretains.boundTo_iff hw hr).symm.trans (hretains'.boundTo_iff hw' hr')
  · intro site object name w v w' hnoted h
    have hin := hkept.noted _ _ _ _ hnoted
    obtain ⟨inner, o, w₁, rfl, ho, hp⟩ := Eval.get_ok h
    obtain ⟨hw₁, -, -⟩ := hin.orderly.evaluates hin.open
      (hin.named.part (List.mem_singleton_self _)) ho
    refine ⟨inner, o, w₁, rfl, ho, ?_⟩
    rintro i rfl
    exact Eval.property_instance hw₁ hp
  · intro site use method w v w' hnoted h
    have hin := hkept.noted _ _ _ _ hnoted
    cases levels with
    | zero => cases h
    | succ levels =>
        rw [Eval.expression] at h
        exact Eval.superMethod_ok hin.orderly h
  · intro site callee paren arguments w v w' hnoted h
    have hin := hkept.noted _ _ _ _ hnoted
    obtain ⟨inner, f, w₁, vs, w₂, rfl, hf, hvs, hcall⟩ := Eval.call_ok h
    obtain ⟨hw₁, hretains, -⟩ := hin.orderly.evaluates hin.open
      (hin.named.part (List.mem_cons_self ..)) hf
    -- The callee was evaluated before the arguments: they leave it bound to what it is bound to.
    obtain ⟨hw₂, hretains', hholds⟩ := hw₁.evaluates_all (hin.open.retain hretains)
      (fun e he => hin.named.part (List.mem_cons_of_mem _ (List.mem_map_of_mem he))) hvs
    refine ⟨inner, f, w₁, vs, w₂, rfl, hf, hvs, ?_, ?_, ?_⟩
    · exact fun r i hr => hretains.boundTo_iff hin.orderly hr
    · rintro r i rfl hr
      obtain ⟨hlate, hinit⟩ :=
        ((hretains'.boundTo_iff hw₁ hr.lt).mpr hr).call hw₂ hholds hcall
      exact ⟨hlate, hretains'.function r hr.lt ▸ hinit⟩
    · rintro c rfl
      exact hw₂.constructs hholds hcall

/-- Whether a call is reached that completes, of a bound method named `init`. -/
def Event.callsInitializer (patience inner : Nat) : Event → Bool
  | .node .reached site (.expr (.call callee paren arguments)) w =>
      match Eval.expression patience (inner + 1) site callee w with
      | .ok (.function r) w₁ =>
          decide (r.index < w₁.functions.size) &&
            ((w₁.scopes.receiver? (w₁.functions.get r).scope).isSome &&
              ((w₁.functions.get r).declaration.displayName == "init" &&
                match Eval.expression patience (inner + 2) site (.call callee paren arguments) w with
                | .ok _ _ => true
                | .error _ _ => false))
      | _ => false
  | _ => false

/-- An inherited initializer that was stored and is called returns what it was bound to. -/
theorem initializers_return_receiver_stored : ∃ site callee paren arguments w r w₁ i w',
    .node .reached site (.expr (.call callee paren arguments)) w ∈ (Session.watch (Session.script
      "class A \x7b init() \x7b \x7b return; \x7d \x7d \x7d class B : A \x7b\x7d var f = B().init; f();")).notes ∧
    Eval.expression 9 39 site callee w = .ok (.function r) w₁ ∧ w₁.BoundTo r i ∧
    (w₁.functions.get r).declaration.displayName = "init" ∧
    Eval.expression 9 40 site (.call callee paren arguments) w = .ok (.instance i) w' := by
  have hany : (Session.watch (Session.script
      "class A \x7b init() \x7b \x7b return; \x7d \x7d \x7d class B : A \x7b\x7d var f = B().init; f();")).notes.any
      (Event.callsInitializer 9 38) = true := by decide +kernel
  obtain ⟨e, hnoted, hcheck⟩ := List.any_eq_true.mp hany
  unfold Event.callsInitializer at hcheck
  split at hcheck
  · next site callee paren arguments w =>
      split at hcheck
      · next r w₁ hf =>
          simp only [Bool.and_eq_true, decide_eq_true_eq, beq_iff_eq] at hcheck
          obtain ⟨hlt, hreceiver, hname, hcall⟩ := hcheck
          obtain ⟨i, hi⟩ := Option.isSome_iff_exists.mp hreceiver
          split at hcall
          · next v w' hv =>
              have hr : w₁.BoundTo r i := ⟨hlt, Scopes.receiver?_eq_some.mp hi⟩
              obtain ⟨inner, f, w₁', vs, w₂, hinner, hf', -, -, hinit, -⟩ :=
                (initializers_return_receiver _ 9 40).2.2.2 _ _ _ _ _ _ _ hnoted hv
              obtain rfl : inner = 38 := by omega
              cases hf.symm.trans hf'
              obtain rfl := (hinit r i rfl hr).2 hname
              exact ⟨site, callee, paren, arguments, w, r, w₁, i, w', hnoted, hf, hr, hname, hv⟩
          · cases hcall
      · cases hcheck
  · cases hcheck

end Treewalk
