import Treewalk.Proofs.Loops.Pairing
import Treewalk.Proofs.Methods.Sessions
import Treewalk.Proofs.Control.Lawful

/-!
# A world beside itself

The scopes of a world that a session passes can be paired with themselves: nothing is written out
yet.
-/
namespace Treewalk

/-- The first scope is that of the first globals, in which code runs. -/
def World.Rooted (w : World) : Prop :=
  w.scopes.size = 0 ∧ w.interpreters.size = 0 ∨ w.Open ⟨0⟩

theorem SessionStep.watch_rooted {s : Watched World Event} (step : SessionStep)
    (horderly : s.state.Orderly) (h : s.state.Rooted) : (step.watch s).2.state.Rooted := by
  have hproceeds := step.watch_proceeds horderly
  rcases h with ⟨hscopes, hinterpreters⟩ | hopen
  · have hheap : ∀ {w : World}, s.state.SameHeap w → w.Rooted :=
      fun hw => .inl ⟨hw.scopes ▸ hscopes, hw.size.trans hinterpreters⟩
    have hnone : ∀ home : Ref .interpreter, ¬home.index < s.state.interpreters.size :=
      fun home => hinterpreters ▸ Nat.not_lt_zero _
    cases step with
    | addLoader searchPaths => exact hheap ⟨rfl, rfl, rfl, rfl, rfl, fun _ => rfl⟩
    | addInterpreter unit loader =>
        obtain ⟨console, hadd⟩ := s.state.addInterpreter_eq unit loader
        have hfirst : s.state.interpreters.next = ⟨0⟩ := congrArg Ref.mk hinterpreters
        have hsize : 0 < (s.state.addInterpreter unit loader).interpreters.size := by
          rw [hadd]
          exact Nat.lt_of_lt_of_eq (Nat.succ_pos _) (Arena.size_add ..).symm
        have hglobals : (s.state.addInterpreter unit loader).globals ⟨0⟩ = ⟨0⟩ := by
          rw [hadd, World.globals, Arena.get_add, if_pos hfirst.symm]
          exact congrArg Ref.mk hscopes
        have hopen := hproceeds.orderly.globals ⟨0⟩ hsize
        rw [show (watch s (.addInterpreter unit loader)).2.state.globals ⟨0⟩ = ⟨0⟩ from hglobals]
          at hopen
        exact .inr hopen
    | compile home file source =>
        exact hheap (s.state.sameObjects_compile nestingLimit home file source).heap
    | run home file source =>
        simp only [watch, hnone, if_false]
        exact .inl ⟨hscopes, hinterpreters⟩
    | execute home text =>
        simp only [watch, hnone, if_false]
        exact .inl ⟨hscopes, hinterpreters⟩
    | resetReporter home =>
        exact hheap (s.state.sameObjects_updateInterpreter home
          (f := fun i => { i with reporter := i.reporter.reset }) fun _ => ⟨rfl, rfl⟩).heap
    | arrange files workingDirectory console now =>
        exact hheap ⟨rfl, rfl, rfl, rfl, rfl, fun _ => rfl⟩
  · exact .inr (hopen.retain hproceeds.retains)

theorem Session.watch_rooted (steps : List SessionStep) : (watch steps).state.Rooted := by
  have hall : (watch steps).state.Orderly ∧ (watch steps).state.Rooted :=
    watch_induction (P := fun s => s.state.Orderly ∧ s.state.Rooted)
      ⟨World.orderly_start, .inl ⟨rfl, rfl⟩⟩ fun s ⟨horderly, h⟩ step _ =>
        ⟨(step.watch_proceeds horderly).orderly, step.watch_rooted horderly h⟩
  exact hall.2

/-- In every state that a session passes once there are interpreters, code may run in the first
scope. -/
theorem Session.Passes.rooted {steps : List SessionStep} {s : Watched World Event}
    (h : Session.Passes steps s) (hsize : 0 < s.state.interpreters.size) : s.state.Open ⟨0⟩ := by
  obtain ⟨horderly, hretains⟩ := h.orderly
  have hscopes := (horderly.globals ⟨0⟩ hsize).lt
  rcases Session.watch_rooted steps with ⟨hnone, -⟩ | hopen
  · have := hretains.scopes
    omega
  · have hlt : 0 < s.state.scopes.size := by omega
    exact ⟨hlt, (hretains.held ⟨0⟩ hlt).symm.trans hopen.held⟩

namespace Pairing

/-- Every scope is paired with itself. -/
def diagonal (w : World) : Pairing where
  pair r r' := r.index < w.scopes.size ∧ r' = r
  parent r p := r.index < w.scopes.size ∧ (w.scopes.get r).parent = p
  parent' r p := r.index < w.scopes.size ∧ (w.scopes.get r).parent = p
  plain := w.Open

section
variable {w : World}

theorem diagonal_sees (h : ∀ r p, (w.scopes.get r).parent = some p → p.index < r.index)
    {r : Ref .scope} (hr : r.index < w.scopes.size) : (diagonal w).Sees id r r := by
  obtain ⟨i⟩ := r
  induction i using Nat.strongRecOn with
  | _ i ih =>
      cases hp : (w.scopes.get ⟨i⟩).parent with
      | none => exact .root ⟨hr, rfl⟩ ⟨hr, hp⟩ ⟨hr, hp⟩
      | some p =>
          have hlt := h _ p hp
          have hinside := Sees.inside (Γ := diagonal w) ⟨hr, rfl⟩ ⟨hr, hp⟩ ⟨hr, hp⟩
            (ih p.index hlt (Nat.lt_trans hlt hr))
          rwa [Shift.inside_id] at hinside

theorem diagonal_holds : (diagonal w).Holds w.scopes w.scopes where
  lt := by
    rintro r _ ⟨hr, rfl⟩
    exact ⟨hr, hr⟩
  one := by
    rintro r _ q _ ⟨-, rfl⟩ ⟨-, rfl⟩
    exact Iff.rfl
  values := by
    rintro r _ ⟨-, rfl⟩
    rfl
  parent := id
  parent' := id
  plain h := ⟨h.lt, h.held⟩

end
end Pairing

/-- What is legal and has proper names is written out as it is, wherever scopes are the same. -/
theorem FunctionDecl.writtenOut_self {d : FunctionDecl} (hlegal : d.Legal)
    (hnamed : (Node.function d).Named) : FunctionDecl.WrittenOut id d d := by
  have hnode : Node.Legal false false (.function d) := .function hlegal
  exact hnode.same id rfl hnamed (.inl rfl)

/-- A world that a session passes is paired with itself. -/
theorem Session.Passes.diagonal {steps : List SessionStep} {s : Watched World Event}
    (h : Session.Passes steps s) (hsize : 0 < s.state.interpreters.size) :
    (Pairing.diagonal s.state).Worlds s.state s.state := by
  have hgood := h.good
  have hlawful := hgood.lawful
  obtain ⟨horderly, -⟩ := h.orderly
  have hroot := h.rooted hsize
  have hsees : ∀ {r : Ref .scope}, r.index < s.state.scopes.size →
      (Pairing.diagonal s.state).Sees id r r := Pairing.diagonal_sees hgood.sane.outward
  constructor
  case scopes => exact Pairing.diagonal_holds
  case functions =>
    refine ⟨rfl, fun r => ?_⟩
    rcases Nat.lt_or_ge r.index s.state.functions.size with hr | hr
    · have hcallable := horderly.functions r hr
      have hd := FunctionDecl.writtenOut_self (hlawful.functions r) hcallable.named
      exact ⟨rfl, rfl, id, hsees hcallable.lt, fun _ => rfl, Shift.inside_id.symm ▸ hd⟩
    · rw [Arena.get_of_le _ hr]
      have hd := FunctionDecl.writtenOut_self (d := default) nofun Node.named_default
      exact ⟨rfl, rfl, id, hsees hroot.lt, fun _ => rfl, Shift.inside_id.symm ▸ hd⟩
  case classes =>
    refine ⟨rfl, fun c => ⟨rfl, rfl, fun name => ?_⟩⟩
    cases hf : (s.state.classes.get c).methods.find? name with
    | none => exact .none
    | some f =>
        have hmethod := horderly.methods c name f hf
        have hd := FunctionDecl.writtenOut_self (hlawful.methods c name f hf) hmethod.named
        refine .some ⟨rfl, rfl, id, hsees hmethod.lt, ?_⟩
        rwa [Shift.inside_id, Shift.inside_id]
  case instances => rfl
  case modules => rfl
  case interpreters =>
    have hinterpreter : ∀ i : Interpreter, s.state.Open i.globals →
        (s.state.scopes.get i.globals).parent = none →
        (Pairing.diagonal s.state).Interpreters i i :=
      fun i hopen hp => ⟨rfl, ⟨hopen.lt, rfl⟩, ⟨hopen.lt, hp⟩, ⟨hopen.lt, hp⟩, hopen⟩
    refine ⟨rfl, fun home => ?_⟩
    rcases Nat.lt_or_ge home.index s.state.interpreters.size with hhome | hhome
    · exact hinterpreter _ (horderly.globals home hhome) (hgood.sane.globals home hhome).2
    · rw [Arena.get_of_le _ hhome]
      refine hinterpreter _ hroot (Option.eq_none_iff_forall_ne_some.mpr fun p hp => ?_)
      exact Nat.not_lt_zero _ (hgood.sane.outward _ p hp)
  case loaders => rfl
  case files => rfl
  case workingDirectory => rfl
  case console => rfl
  case now => rfl

end Treewalk
