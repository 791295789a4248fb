import Treewalk.Proofs.Methods.Runs
import Treewalk.Proofs.Run.Homes

/-!
# Orderly sessions

Every session keeps the world in order. Whatever a scope held for methods when something was noted,
it holds at the end of the session and did in between.
-/
namespace Treewalk

/-- Everything was noted in order. -/
structure Kept (s : Watched World Event) : Prop where
  orderly : s.state.Orderly
  steps : ({} : World).Steps s.state
  noted : ∀ m site n w, .node m site n w ∈ s.notes → NotedInOrder site n w s.state
  reached : ∀ m site n w, .node m site n w ∈ s.notes → ({} : World).Steps w
  opened : ∀ r c, .opened r c ∈ s.notes → s.Shows r c

namespace Kept
variable {s t : Watched World Event}

theorem proceed (h : Kept s) (ht : Proceeds s t) : Kept t where
  orderly := ht.orderly
  steps := h.steps.trans ht.steps
  noted m site n w hn := by
    rcases ht.noted m site n w hn with hold | ⟨-, hnew⟩
    · have hnoted := h.noted m site n w hold
      exact { hnoted with retains := hnoted.retains.trans ht.retains }
    · exact hnew
  reached m site n w hn := by
    rcases ht.noted m site n w hn with hold | ⟨hsteps, -⟩
    · exact h.reached m site n w hold
    · exact h.steps.trans hsteps
  opened r c hc := by
    rcases ht.opened r c hc with hold | hnew
    · exact (h.opened r c hold).proceed ht
    · exact hnew

end Kept

/-- The execution of a text goes on in order. -/
theorem Watching.executeText_proceeds {s : Watched World Event} (h : s.state.Orderly)
    {home : Ref .interpreter} (text : UnitText) (hhome : home.index < s.state.interpreters.size) :
    Proceeds s (Watching.executeText home text s).2 := by
  have hrun := Watching.execute_steady (levelSteady grantedRounds (nestingLimit / 2)).statement
    h hhome text
  unfold Steady Yields at hrun
  unfold Watching.executeText
  cases hr : Watching.execute (Watching.statement grantedRounds (nestingLimit / 2)) home text s with
  | ok completion t =>
      rw [hr] at hrun
      exact hrun.1
  | error i t =>
      rw [hr] at hrun
      cases i <;> exact hrun.1

/-- So does every step of a session. -/
theorem SessionStep.watch_proceeds {s : Watched World Event} (step : SessionStep)
    (h : s.state.Orderly) : Proceeds s (step.watch s).2 := by
  have hheap : ∀ {w : World}, s.state.SameHeap w → Proceeds s { s with state := w } :=
    fun hw => .step h (.same hw)
  cases step with
  | addLoader searchPaths => exact hheap ⟨rfl, rfl, rfl, rfl, rfl, fun _ => rfl⟩
  | addInterpreter unit loader =>
      obtain ⟨console, hadd⟩ := s.state.addInterpreter_eq unit loader
      have hnew := Proceeds.step h (.newGlobals
        (i := { reporter := { unit := unit }, globals := s.state.scopes.next,
                loader := loader }) rfl)
      have hadded : Proceeds s { s with state := s.state.addInterpreter unit loader } := by
        rw [hadd]
        exact hnew.trans (.step hnew.orderly (.same ⟨rfl, rfl, rfl, rfl, rfl, fun _ => rfl⟩))
      exact hadded
  | compile home file source =>
      exact hheap (s.state.sameObjects_compile nestingLimit home file source).heap
  | run home file source =>
      unfold watch
      by_cases hhome : home.index < s.state.interpreters.size
      · simp only [hhome, if_true]
        have hsame := s.state.sameObjects_compile nestingLimit home file source
        have hhome' := Nat.lt_of_lt_of_eq hhome hsame.size.symm
        have hprepared := hheap hsame.heap
        exact hprepared.trans (Watching.executeText_proceeds hprepared.orderly _ hhome')
      · simp only [hhome, if_false]
        exact .refl h
  | execute home text =>
      unfold watch
      by_cases hhome : home.index < s.state.interpreters.size
      · simp only [hhome, if_true]
        exact Watching.executeText_proceeds h text hhome
      · simp only [hhome, if_false]
        exact .refl h
  | resetReporter home =>
      exact hheap (s.state.sameObjects_updateInterpreter home
        (f := fun i => { i with reporter := i.reporter.reset }) fun _ => ⟨rfl, rfl⟩).heap
  | arrange files workingDirectory console now =>
      exact hheap ⟨rfl, rfl, rfl, rfl, rfl, fun _ => rfl⟩

theorem World.orderly_start : ({} : World).Orderly := by
  constructor
  case aged => exact fun _ _ hp => nomatch hp
  case methods => exact fun _ _ _ hf => nomatch hf
  case functions => exact fun _ hr => nomatch hr
  case receivers => exact fun _ _ hi => nomatch hi
  case values => exact fun _ _ _ hv => nomatch hv
  case fields => exact fun _ _ _ hv => nomatch hv
  case globals => exact fun _ hi => nomatch hi

theorem Session.watch_kept (steps : List SessionStep) : Kept (Session.watch steps) := by
  refine Session.watch_induction ?_ fun s h step _ => h.proceed (step.watch_proceeds h.orderly)
  exact ⟨World.orderly_start, .refl _, fun _ _ _ _ hn => (nomatch hn),
    fun _ _ _ _ hn => (nomatch hn), fun _ _ hc => (nomatch hc)⟩

/-- Every state that a session passes is in order, and what it holds stays. -/
theorem Session.Passes.orderly {steps : List SessionStep} {s : Watched World Event}
    (h : Session.Passes steps s) :
    s.state.Orderly ∧ s.state.Retains (Session.watch steps).state := by
  have hkept := Session.watch_kept steps
  cases h with
  | last => exact ⟨hkept.orderly, .refl _⟩
  | @noted later earlier m site n w h =>
      have hnoted := hkept.noted m site n w (h ▸ List.mem_append_right _ (List.mem_cons_self ..))
      exact ⟨hnoted.orderly, hnoted.retains⟩

end Treewalk
