import Treewalk.Proofs.Chains.Walks
import Treewalk.Proofs.Methods.Sessions
import Treewalk.Proofs.Reach.Sessions
import Treewalk.Proofs.Loading.Sessions

/-!
# Chains in sessions

Whatever a session does, scopes are made inside older ones, or as the globals of a new interpreter,
and no scope ever moves; classes are made with older superclasses, which they keep. So outward from
any scope are the globals of an interpreter, and upward from any class there is one without
superclass, whatever the names of classes have come to stand for.
-/
namespace Treewalk

/-! ### Outermost scopes -/

namespace World
variable {w w' : World}

/-- Outermost scopes are the globals of interpreters. -/
def Grounded (w : World) : Prop := ∀ r : Ref .scope, r.index < w.scopes.size →
  (w.scopes.get r).parent = none →
    ∃ home : Ref .interpreter, home.index < w.interpreters.size ∧ w.globals home = r

/-- A scope that is made inside another one is not outermost. -/
theorem Grounded.newScope (h : w.Grounded) (p : Ref .scope) :
    World.Grounded { w with scopes := w.scopes.addChild (some p) } := by
  intro r hr hroot
  rcases Arena.get_add_cases _ _ hr with ⟨hlt, hget⟩ | ⟨-, hget⟩
  · exact h r hlt ((congrArg Scope.parent hget).symm.trans hroot)
  · cases (congrArg Scope.parent hget).symm.trans hroot

/-- Binding a name makes no scope and moves none. -/
theorem Grounded.define (h : w.Grounded) (r : Ref .scope) (x : String) (v : Value) :
    World.Grounded { w with scopes := w.scopes.define r x v } := by
  intro r' hr hroot
  refine h r' (Nat.lt_of_lt_of_eq hr (Arena.size_set ..)) ?_
  exact (Scopes.parent_of_define w.scopes r r' x v).symm.trans hroot

/-- The globals of a new interpreter are outermost. -/
theorem Grounded.newGlobals (h : w.Grounded) {i : Interpreter} (hi : i.globals = w.scopes.next) :
    World.Grounded { w with
      scopes := w.scopes.addChild none, interpreters := w.interpreters.add i } := by
  intro r hr hroot
  rcases Arena.get_add_cases _ _ hr with ⟨hlt, hget⟩ | ⟨rfl, -⟩
  · obtain ⟨home, hhome, hglobals⟩ := h r hlt ((congrArg Scope.parent hget).symm.trans hroot)
    refine ⟨home, Nat.lt_of_lt_of_eq (Nat.lt_succ_of_lt hhome) (Arena.size_add ..).symm, ?_⟩
    exact (congrArg Interpreter.globals (Arena.get_add_of_lt _ _ hhome)).trans hglobals
  · refine ⟨w.interpreters.next, ?_, ?_⟩
    · exact Nat.lt_of_lt_of_eq (Nat.lt_succ_self _) (Arena.size_add ..).symm
    · exact (congrArg Interpreter.globals (Arena.get_add_next ..)).trans hi

theorem Grounded.step (h : w.Grounded) (hs : w.Step w') : w'.Grounded := by
  cases hs with
  | same hsame =>
      intro r hr hroot
      rw [hsame.scopes] at hr hroot
      obtain ⟨home, hhome, hglobals⟩ := h r hr hroot
      exact ⟨home, Nat.lt_of_lt_of_eq hhome hsame.size.symm, (hsame.globals home).trans hglobals⟩
  | define _ _ => exact h.define _ _ _
  | newScope p => exact h.newScope p
  | bind _ _ _ => exact (h.newScope _).define _ _ _
  | inherit p _ => exact (h.newScope p).define _ _ _
  | newFunction _ => exact h
  | newClass _ _ => exact h
  | newInstance c => exact h
  | setField i x _ => exact h
  | newGlobals hi => exact (h.newGlobals hi).define _ _ _

theorem Steps.grounded (h : w.Steps w') (hw : w.Grounded) : w'.Grounded := by
  induction h with
  | refl => exact hw
  | tail _ hs ih => exact ih.step hs

end World

/-! ### States of sessions -/

/-- A computation that starts in a world ends in another one, normally or not. -/
def Eval.Ends {α : Type} (p : Eval α) (w w' : World) : Prop :=
  match p w with
  | .ok _ t | .error _ t => t = w'

/-- The worlds that a session reaches: those in which something is noted of a node, those in which
the evaluation of such a node ends, at any limits, and the last one. -/
inductive Session.Reaches (steps : List SessionStep) : World → Prop
  | passed {s : Watched World Event} : Session.Passes steps s → Reaches steps s.state
  | expression {later earlier : List Event} {m : Moment} {site : Site} {e : Expr} {w w' : World}
      {patience levels : Nat} :
      (Session.watch steps).notes = later ++ .node m site (.expr e) w :: earlier →
      (Eval.expression patience levels site e).Ends w w' → Reaches steps w'
  | statement {later earlier : List Event} {m : Moment} {site : Site} {st : Stmt} {w w' : World}
      {patience levels : Nat} :
      (Session.watch steps).notes = later ++ .node m site (.stmt st) w :: earlier →
      (Eval.statement patience levels site st).Ends w w' → Reaches steps w'

section
variable {α : Type} {p : Watching α} {q : Eval α} {s : Watched World Event} {w : World}
  {Q : α → Watched World Event → Prop}

/-- What goes on in order when it is watched ends in an orderly world, reached step by step. -/
theorem Steady.ends (h : Steady p s Q) (hpq : Watched.Erases p q) (hends : q.Ends s.state w) :
    w.Orderly ∧ s.state.Steps w := by
  unfold Eval.Ends at hends
  rw [← hpq s] at hends
  unfold Steady Yields at h
  cases hp : p s with
  | ok a t =>
      rw [hp] at h hends
      cases hends
      exact ⟨h.1.orderly, h.1.steps⟩
  | error i t =>
      rw [hp] at h hends
      cases hends
      exact ⟨h.1.orderly, h.1.steps⟩

theorem Safe.ends {current : Prop} {n : Nat} (h : Safe current n p s Q) (hpq : Watched.Erases p q)
    (hends : q.Ends s.state w) : ∃ notes, Good current n ⟨w, notes⟩ := by
  unfold Eval.Ends at hends
  rw [← hpq s] at hends
  unfold Safe at h
  cases hp : p s with
  | ok a t =>
      rw [hp] at h hends
      cases hends
      exact ⟨t.notes, h.1.good⟩
  | error i t =>
      rw [hp] at h hends
      cases hends
      exact ⟨t.notes, h.1.good⟩

end

/-- Whatever is noted of a node is noted in order, in a world that was reached step by step. -/
theorem Session.noted_steps {steps : List SessionStep} {later earlier : List Event} {m : Moment}
    {site : Site} {n : Node} {w : World}
    (h : (Session.watch steps).notes = later ++ .node m site n w :: earlier) :
    NotedInOrder site n w (Session.watch steps).state ∧ ({} : World).Steps w := by
  have hkept := Session.watch_kept steps
  have hmem := h ▸ List.mem_append_right later (List.mem_cons_self ..)
  exact ⟨hkept.noted m site n w hmem, hkept.reached m site n w hmem⟩

namespace Session.Reaches
variable {steps : List SessionStep} {w : World}

/-- Whatever a session reaches it reaches step by step, and it is orderly. -/
theorem orderly (h : Session.Reaches steps w) : w.Orderly ∧ ({} : World).Steps w := by
  cases h with
  | passed hs =>
      cases hs with
      | last =>
          have hkept := Session.watch_kept steps
          exact ⟨hkept.orderly, hkept.steps⟩
      | noted h =>
          obtain ⟨hin, hsteps⟩ := Session.noted_steps h
          exact ⟨hin.orderly, hsteps⟩
  | @expression later earlier m site e w _ patience levels h hends =>
      obtain ⟨hin, hsteps⟩ := Session.noted_steps h
      have hrun := (levelSteady patience levels).expression ⟨w, earlier⟩ site e hin.orderly hin.open
        hin.named
      have hended := hrun.ends ((Watching.erases patience levels).expression site e) hends
      exact ⟨hended.1, hsteps.trans hended.2⟩
  | @statement later earlier m site st w _ patience levels h hends =>
      obtain ⟨hin, hsteps⟩ := Session.noted_steps h
      have hrun := (levelSteady patience levels).statement ⟨w, earlier⟩ site st hin.orderly hin.open
        hin.named
      have hended := hrun.ends ((Watching.erases patience levels).statement site st) hends
      exact ⟨hended.1, hsteps.trans hended.2⟩

/-- And scopes are made inside older ones. -/
theorem outward (h : Session.Reaches steps w) : w.scopes.Outward := by
  have hgood : ∃ notes, Good False 0 ⟨w, notes⟩ := by
    cases h with
    | @passed s hs => exact ⟨s.notes, hs.good⟩
    | @expression later earlier m site e w _ patience levels h hends =>
        obtain ⟨hgood, frames, hat⟩ := Session.noted (fun hc : False => hc.elim) h
        have hrun := (Watching.levelSafe False patience levels).expression 0 ⟨w, earlier⟩ site
          frames e hgood hat
        exact hrun.ends ((Watching.erases patience levels).expression site e) hends
    | @statement later earlier m site st w _ patience levels h hends =>
        obtain ⟨hgood, frames, hat⟩ := Session.noted (fun hc : False => hc.elim) h
        have hrun := (Watching.levelSafe False patience levels).statement 0 ⟨w, earlier⟩ site
          frames st hgood hat fun _ hlt => (Nat.not_lt_zero _ hlt).elim
        exact hrun.ends ((Watching.erases patience levels).statement site st) hends
  obtain ⟨notes, hgood⟩ := hgood
  exact hgood.sane.outward

theorem grounded (h : Session.Reaches steps w) : w.Grounded :=
  h.orderly.2.grounded fun _ hr => nomatch hr

end Session.Reaches

/-! ### Chains -/

namespace World

/-- The scopes outward from a scope end, as many steps away as it is deep, in the globals of an
interpreter; and so end the loops over them. -/
structure OutwardChain (w : World) (r : Ref .scope) : Prop where
  ends : ∃ home : Ref .interpreter, home.index < w.interpreters.size ∧
    w.scopes.ancestor? (w.scopes.depth r) r = some (w.globals home) ∧
    (w.scopes.get (w.globals home)).parent = none
  load : ∀ name, Walks (fun r => (w.scopes.get r).parent) (fun r => w.scopes.find? r name) r
    (w.scopes.load? r name)
  store : ∀ name v, Walks (fun r => (w.scopes.get r).parent)
    (fun r => if w.scopes.contains r name then some (w.scopes.define r name v) else none) r
    (w.scopes.store? r name v)

/-- The classes upward from a class end, and so does the loop over them; what it finds is the
nearest definition of a method, if there is one. -/
structure UpwardChain (w : World) (c : Ref .class) : Prop where
  ends : ∃ k, w.Inherits c k ∧ (w.classes.get k).superclass = none
  method : ∀ name, Walks (fun c => (w.classes.get c).superclass)
    (fun c => (w.classes.get c).methods.find? name) c (w.method? c name)
  nearest : ∀ name f, w.method? c name = some f ↔ ∃ k, w.Nearest name c k f
  missing : ∀ name, w.method? c name = none ↔
    ∀ k, w.Inherits c k → (w.classes.get k).methods.find? name = none

variable {w : World}

theorem Grounded.outwardChain (h : w.Grounded) (hw : w.scopes.Outward) {r : Ref .scope}
    (hr : r.index < w.scopes.size) : w.OutwardChain r where
  ends := by
    -- Scopes are made inside older ones, so the way outward ends; only globals are outermost.
    obtain ⟨g, hg, hroot⟩ := hw.ends r
    obtain ⟨home, hhome, rfl⟩ := h g (Nat.lt_of_le_of_lt (Scopes.index_ancestor? hw hg) hr) hroot
    exact ⟨home, hhome, hg, hroot⟩
  load := hw.load?_walks r
  store := hw.store?_walks r

theorem Aged.upwardChain (h : w.Aged) (c : Ref .class) : w.UpwardChain c where
  ends := h.ends c
  method := h.method?_walks c
  nearest _ _ := h.method?_eq_some
  missing _ := h.method?_eq_none

end World

/-- All chains are finite. In whatever a session reaches, the scopes outward from any scope end in
the globals of an interpreter, and the classes upward from any class in one without superclass; the
loops over them end, and a method is found where it is defined nearest. -/
theorem chains_end {steps : List SessionStep} {w : World} (h : Session.Reaches steps w) :
    (∀ r : Ref .scope, r.index < w.scopes.size → w.OutwardChain r) ∧
      ∀ c : Ref .class, w.UpwardChain c :=
  ⟨fun _ hr => h.grounded.outwardChain h.outward hr, fun c => h.orderly.1.aged.upwardChain c⟩

/-- A class inherits from a class of a module, and the name of this one is then given to a class
that inherits from it. -/
def Session.redefining : List SessionStep :=
  .addLoader [] :: Session.withModules [("m.lox", "class A \x7b m() \x7b\x7d \x7d")]
    "import m; var A = m.A; class B : A \x7b\x7d class A : B \x7b n() \x7b\x7d \x7d"

/-- The last class finds the method of the module, two classes upward. -/
theorem chains_end_redefined :
    let w := (Session.watch Session.redefining).state
    (w.scopes.find? (w.globals ⟨0⟩) "A").bind Value.class? = some ⟨2⟩ ∧
    w.UpwardChain ⟨2⟩ ∧ w.OutwardChain ⟨3⟩ ∧ (w.scopes.get ⟨3⟩).parent = some (w.globals ⟨0⟩) ∧
    ∃ f, f.home = ⟨1⟩ ∧ w.Nearest "m" ⟨2⟩ ⟨0⟩ f ∧ w.method? ⟨2⟩ "m" = some f := by
  intro w
  have hshape : (w.scopes.find? (w.globals ⟨0⟩) "A").bind Value.class? = some ⟨2⟩ ∧
      3 < w.scopes.size ∧ (w.scopes.get ⟨3⟩).parent = some (w.globals ⟨0⟩) ∧
      ((w.classes.get ⟨2⟩).methods.find? "m").isNone = true ∧
      (w.classes.get ⟨2⟩).superclass = some ⟨1⟩ ∧
      ((w.classes.get ⟨1⟩).methods.find? "m").isNone = true ∧
      (w.classes.get ⟨1⟩).superclass = some ⟨0⟩ ∧
      ((w.classes.get ⟨0⟩).methods.find? "m").map Closure.home = some ⟨1⟩ := by
    decide +kernel
  obtain ⟨hname, hscope, hparent, hlast, hmiddle, hfree, hfirst, hmethod⟩ := hshape
  have hreached : Session.Reaches Session.redefining w := .passed .last
  obtain ⟨houtward, hupward⟩ := chains_end hreached
  obtain ⟨f, hf, hhome⟩ := Option.map_eq_some_iff.mp hmethod
  have hnearest : w.Nearest "m" ⟨2⟩ ⟨0⟩ f :=
    .inherited (Option.isNone_iff_eq_none.mp hlast) hmiddle
      (.inherited (Option.isNone_iff_eq_none.mp hfree) hfirst (.own hf))
  exact ⟨hname, hupward ⟨2⟩, houtward ⟨3⟩ hscope, hparent, f, hhome, hnearest,
    ((hupward ⟨2⟩).nearest "m" f).mpr ⟨⟨0⟩, hnearest⟩⟩

end Treewalk
