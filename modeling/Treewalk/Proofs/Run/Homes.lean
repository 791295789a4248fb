import Treewalk.Proofs.Run.Constants
import Treewalk.Proofs.Scopes.Tables

/-!
# Functions at home

Every function, wherever it is kept, belongs to the interpreter that executed the unit it was written
in: that interpreter has the hop counts of the unit, and the scopes around the function end in its
globals and in those of no other one. Every node is evaluated where this holds of it, and a name
without hops is one of these globals.
-/
namespace Treewalk

namespace Scopes
variable {α : Type} {s : Scopes α}

/-- There is only one outermost scope. -/
theorem ancestor?_outermost {k m : Nat} {r g g' : Ref .scope} (h : s.ancestor? k r = some g)
    (hg : (s.get g).parent = none) (h' : s.ancestor? m r = some g')
    (hg' : (s.get g').parent = none) : g = g' := by
  induction k generalizing m r with
  | zero =>
      cases h
      cases m with
      | zero => exact Option.some.inj h'
      | succ m =>
          unfold ancestor? at h'
          rw [hg] at h'
          cases h'
  | succ k ih =>
      unfold ancestor? at h
      cases hp : (s.get r).parent with
      | none =>
          rw [hp] at h
          cases h
      | some p =>
          rw [hp] at h
          cases m with
          | zero =>
              cases h'
              rw [hg'] at hp
              cases hp
          | succ m =>
              unfold ancestor? at h'
              rw [hp] at h'
              exact ih h h'

end Scopes

/-- The scopes outward from a scope end in the globals of an interpreter. -/
def World.EndsIn (w : World) (scope : Ref .scope) (home : Ref .interpreter) : Prop :=
  ∃ k, w.scopes.ancestor? k scope = some (w.globals home) ∧
    (w.scopes.get (w.globals home)).parent = none

/-- An interpreter has a hop count: it was recorded in a unit that the interpreter executed. -/
def HasHops (notes : List Event) (home : Ref .interpreter) (r : Resolution) : Prop :=
  ∃ text st, .began home text st ∈ notes ∧ r ∈ text.unit.resolutions

/-- Code that sees a scope belongs to an interpreter: it is part of the statement `st` of an accepted
unit. -/
structure AtHome (s : Watched World Event) (home : Ref .interpreter) (scope : Ref .scope) (n : Node)
    (text : UnitText) (st : Stmt) : Prop where
  began : .began home text st ∈ s.notes
  accepted : text.unit.ok = true ∧ st ∈ text.unit.statements
  within : ∃ frames, Within ⟨[], .stmt st⟩ ⟨frames, n⟩
  table : ∀ r ∈ text.unit.resolutions, HasHops s.notes home r
  hops : ∀ q use hops, Within ⟨[], n⟩ q → q.node.use? = some use → use.hops = some hops →
    ∃ form, ⟨form, use.name, hops⟩ ∈ text.unit.resolutions
  ends : s.state.EndsIn scope home
  only : ∀ home' : Ref .interpreter, home'.index < s.state.interpreters.size →
    s.state.EndsIn scope home' → home' = home

/-- A function is at home. -/
def Closure.AtHome (s : Watched World Event) (f : Closure) : Prop :=
  ∃ text st, Treewalk.AtHome s f.home f.scope (.function f.declaration) text st

section
variable {current : Prop} {n : Nat} {s : Watched World Event} {home : Ref .interpreter}
  {scope : Ref .scope} {frames frames' : List Frame} {node : Node}

theorem Stands.ends (h : Stands s home scope frames) :
    s.state.scopes.ancestor? frames.length scope = some (s.state.globals home) := by
  induction h with
  | globals => rfl
  | inside _ _ hparent _ _ ih =>
      rw [List.length_cons]
      unfold Scopes.ancestor?
      rw [hparent]
      exact ih

theorem Good.atHome (h : Good current n s) (hstands : Stands s home scope frames)
    (hbegun : Begun s home ⟨frames', node⟩) :
    ∃ text st, AtHome s home scope node text st := by
  obtain ⟨text, st, hb, hwithin⟩ := hbegun
  obtain ⟨hok, hst⟩ := h.told.accepted hb
  have hroot := (h.sane.globals home hstands.lt).2
  refine ⟨text, st, hb, ⟨hok, hst⟩, ⟨frames', hwithin⟩, fun r hr => ⟨text, st, hb, hr⟩, ?_,
    ⟨_, hstands.ends, hroot⟩, ?_⟩
  · intro q use hops hq hu hh
    obtain ⟨outer, hq⟩ := hq.anywhere frames'
    exact UnitText.listed hok hst (hwithin.trans hq) hu hh
  · rintro home' hi ⟨k, hk, hroot'⟩
    have hsame := Scopes.ancestor?_outermost hk hroot' hstands.ends hroot
    exact h.sane.apart home' home hi hstands.lt hsame

/-- Functions that can be called are at home. -/
theorem Good.function_atHome (h : Good current n s) {r : Ref .function}
    (hr : r.index < s.state.functions.size) : (s.state.functions.get r).AtHome s := by
  obtain ⟨frames, hstands, hbegun, -⟩ := h.sane.functions r hr
  exact h.atHome hstands hbegun

/-- So are methods, before a receiver is bound to them. -/
theorem Good.method_atHome (h : Good current n s) {c : Ref .class} {name : String} {f : Closure}
    (hf : (s.state.classes.get c).methods.find? name = some f) : f.AtHome s := by
  obtain ⟨frames, hstands, hbegun, -⟩ := h.sane.methods c name f hf
  exact h.atHome hstands hbegun

end

/-- The states that a session passes: the last one, and those in which something is noted of a
node. -/
inductive Session.Passes (steps : List SessionStep) : Watched World Event → Prop
  | last : Passes steps (Session.watch steps)
  | noted {later earlier : List Event} {m : Moment} {site : Site} {n : Node} {w : World} :
      (Session.watch steps).notes = later ++ .node m site n w :: earlier → Passes steps ⟨w, earlier⟩

theorem Session.Passes.good {steps : List SessionStep} {s : Watched World Event}
    (h : Session.Passes steps s) : Good False 0 s := by
  cases h with
  | last => exact Session.watch_good fun hc => hc.elim
  | noted h => exact (Session.noted (fun hc : False => hc.elim) h).1

namespace Eval
variable {site : Site} {w : World} {use : NameUse}

end Eval

end Treewalk
