import Treewalk.Proofs.Control.Taking
import Treewalk.Proofs.Run.Environments

/-!
# Signals in sessions

Every unit of a session runs among its handlers, from an orderly state to an orderly state. Nothing
is said about units whose text was not prepared: there is no way to run one.
-/
namespace Treewalk

namespace Orderly
variable {notes later earlier : List ControlEvent}

/-- What does not stand first stands in the rest. -/
theorem later_cons {e e' : ControlEvent} (h : e :: notes = later ++ e' :: earlier)
    (he : e ≠ e') :
    ∃ later', later = e :: later' ∧ notes = later' ++ e' :: earlier := by
  cases later with
  | nil => exact (he (List.cons.inj h).1).elim
  | cons x later' =>
      obtain ⟨hx, h⟩ := List.cons.inj h
      exact ⟨later', by rw [hx], h⟩

/-- A signal is taken before anything else happens. -/
theorem taken (horderly : Orderly notes) {c : Signal} {st : Stmt} {handlers : List Handler}
    (h : notes = later ++ .raised c st handlers :: earlier) :
    ∃ taker later', later = later' ++ [.caught c taker] ∧ c.taker? handlers = some taker ∧
      taker.Encloses st ∧ .entered taker ∈ earlier := by
  induction horderly generalizing later with
  | nil => cases (List.append_eq_nil_iff.mp h.symm).2
  | entered _ _ ih | left _ _ ih =>
      obtain ⟨rest, rfl, hrest⟩ := later_cons h nofun
      obtain ⟨taker, later', rfl, htaken⟩ := ih hrest
      exact ⟨taker, _, (List.cons_append ..).symm, htaken⟩
  | caught htaker hencloses hentered _ ih =>
      obtain ⟨rest, rfl, hrest⟩ := later_cons h nofun
      cases rest with
      | nil =>
          cases hrest
          exact ⟨_, [], rfl, htaker, hencloses, hentered⟩
      | cons x rest =>
          obtain ⟨taker, later', rfl, htaken⟩ := ih (List.cons.inj hrest).2
          exact ⟨taker, _, by rw [List.cons_append, List.cons_append], htaken⟩

/-- Handlers have different numbers. -/
theorem entered_id (horderly : Orderly notes) {h : Handler}
    (hs : notes = later ++ .entered h :: earlier) : h.id = earlier.length := by
  induction horderly generalizing later with
  | nil => cases List.append_eq_nil_iff.mp hs.symm |>.2
  | entered hid _ ih =>
      cases later with
      | nil =>
          cases hs
          exact hid
      | cons x later' => exact ih (List.cons.inj hs).2
  | left _ _ ih =>
      obtain ⟨later', -, hs⟩ := later_cons hs nofun
      exact ih hs
  | caught _ _ _ _ ih =>
      obtain ⟨later', -, hs⟩ := later_cons hs nofun
      obtain ⟨later'', -, hs⟩ := later_cons hs nofun
      exact ih hs

/-- No signal leaves a boundary. -/
theorem not_left (horderly : Orderly notes) (b : Boundary) (c : Signal) :
    .left b (some (.signal c)) ∉ notes := by
  induction horderly with
  | nil => exact List.not_mem_nil
  | entered _ _ ih =>
      intro h
      rcases List.mem_cons.mp h with h | h
      · cases h
      · exact ih h
  | caught _ _ _ _ ih =>
      intro h
      rcases List.mem_cons.mp h with h | h
      · cases h
      · rcases List.mem_cons.mp h with h | h
        · cases h
        · exact ih h
  | left hi _ ih =>
      intro h
      rcases List.mem_cons.mp h with h | h
      · cases h
        exact hi c rfl
      · exact ih h

end Orderly

namespace Handling

/-- Executes a unit outside all handlers. -/
def executeUnit (home : Ref .interpreter) (u : CompiledUnit) (s : Watched World ControlEvent) :
    Outcome × Watched World ControlEvent :=
  Outcome.ofResult u (execute [] (statement grantedRounds (nestingLimit / 2)) home u s)

theorem executeUnit_erases (home : Ref .interpreter) (u : CompiledUnit)
    (s : Watched World ControlEvent) :
    ((executeUnit home u s).1, (executeUnit home u s).2.state) = s.state.execute home u := by
  have hall : Watched.Erases (execute [] (statement grantedRounds (nestingLimit / 2)) home u) _ :=
    execute_erases (Handling.erases grantedRounds (nestingLimit / 2)).statement home u
  have herases := hall s
  rw [World.execute_eq, ← herases]
  unfold executeUnit
  cases execute [] (statement grantedRounds (nestingLimit / 2)) home u s with
  | ok completion t => rfl
  | error i t => cases i <;> rfl

theorem executeUnit_fair (home : Ref .interpreter) (text : UnitText)
    {s : Watched World ControlEvent} (h : Fair s) :
    Fair (executeUnit home text.unit s).2 ∧ ∀ c, (executeUnit home text.unit s).1 ≠ .stray c := by
  have hhandled : After [] s.notes (fun _ => True) (execute [] (statement grantedRounds
      (nestingLimit / 2)) home text.unit s) :=
    Handled.execute (levelTaken grantedRounds (nestingLimit / 2)).statement text h
      (List.forall_mem_nil _)
  unfold executeUnit
  cases hr : execute [] (statement grantedRounds (nestingLimit / 2)) home text.unit s with
  | ok completion t =>
      rw [hr] at hhandled
      exact ⟨hhandled.2.1, fun _ he => nomatch he⟩
  | error i t =>
      rw [hr] at hhandled
      cases i with
      | signal c => exact hhandled.no_signal.elim
      | _ => exact ⟨hhandled.2, fun _ he => nomatch he⟩

end Handling

namespace SessionStep

/-- A step among handlers. -/
def handle (s : Watched World ControlEvent) (step : SessionStep) :
    Option Outcome × Watched World ControlEvent :=
  match step with
  | .run home file source =>
      if home.index < s.state.interpreters.size then
        let r := s.state.compile nestingLimit home file source
        let r := Handling.executeUnit home r.1 { s with state := r.2 }
        (some r.1, r.2)
      else (none, s)
  | .execute home text =>
      if home.index < s.state.interpreters.size then
        let r := Handling.executeUnit home text.unit s
        (some r.1, r.2)
      else (none, s)
  | step =>
      let r := step.play s.state
      (r.1, { s with state := r.2 })

theorem handle_erases (s : Watched World ControlEvent) (step : SessionStep) :
    ((step.handle s).1, (step.handle s).2.state) = step.play s.state := by
  cases step with
  | run home file source =>
      unfold handle play
      by_cases hhome : home.index < s.state.interpreters.size
      · simp only [hhome, if_true]
        unfold World.run
        rw [← Handling.executeUnit_erases home (s.state.compile nestingLimit home file source).1
          { s with state := (s.state.compile nestingLimit home file source).2 }]
      · simp only [hhome, if_false]
  | execute home text =>
      unfold handle play
      by_cases hhome : home.index < s.state.interpreters.size
      · simp only [hhome, if_true]
        rw [← Handling.executeUnit_erases home text.unit s]
      · simp only [hhome, if_false]
  | _ => rfl

/-- A step keeps the state fair, and no signal is left at its end. -/
theorem handle_fair {s : Watched World ControlEvent} (step : SessionStep) (h : Fair s) :
    Fair (step.handle s).2 ∧ ∀ c, (step.handle s).1 ≠ some (.stray c) := by
  have hsome : ∀ {r : Outcome × Watched World ControlEvent},
      (Fair r.2 ∧ ∀ c, r.1 ≠ .stray c) → Fair r.2 ∧ ∀ c, some r.1 ≠ some (.stray c) :=
    fun hr => ⟨hr.1, fun c he => hr.2 c (Option.some.inj he)⟩
  cases step with
  | addLoader searchPaths => exact ⟨⟨h.lawful.of_eq rfl rfl, h.orderly⟩, nofun⟩
  | addInterpreter unit loader => exact ⟨⟨h.lawful.addInterpreter unit loader, h.orderly⟩, nofun⟩
  | compile home file source =>
      exact ⟨⟨h.lawful.alike (s.state.alike_compile _ _ _ _), h.orderly⟩, nofun⟩
  | run home file source =>
      unfold handle
      by_cases hhome : home.index < s.state.interpreters.size
      · simp only [hhome, if_true]
        rw [World.compile_fst]
        have hlawful := h.lawful.alike (s.state.alike_compile nestingLimit home file source)
        exact hsome (Handling.executeUnit_fair home _ ⟨hlawful, h.orderly⟩)
      · simp only [hhome, if_false]
        exact ⟨h, nofun⟩
  | execute home text =>
      unfold handle
      by_cases hhome : home.index < s.state.interpreters.size
      · simp only [hhome, if_true]
        exact hsome (Handling.executeUnit_fair home text h)
      · simp only [hhome, if_false]
        exact ⟨h, nofun⟩
  | resetReporter home => exact ⟨⟨h.lawful.of_eq rfl rfl, h.orderly⟩, nofun⟩
  | arrange files workingDirectory console now =>
      exact ⟨⟨h.lawful.of_eq rfl rfl, h.orderly⟩, nofun⟩

end SessionStep

namespace Session

/-- A session among handlers, with all notes, latest first. -/
def handle (steps : List SessionStep) : Watched World ControlEvent :=
  steps.foldl (fun s step => (step.handle s).2) ⟨{}, []⟩

theorem handle_state (steps : List SessionStep) : (handle steps).state = play steps :=
  (List.foldl_hom Watched.state fun s step => (congrArg Prod.snd (step.handle_erases s)).symm).symm

theorem handle_fair (steps : List SessionStep) : Fair (handle steps) :=
  List.foldlRecOn steps _ (motive := Fair)
    ⟨⟨fun _ _ hst => (nomatch hst), fun _ _ _ hf => (nomatch hf)⟩, .nil⟩
    fun _ h step _ => (step.handle_fair h).1

end Session

/-- Whatever a session does, every signal is taken before anything else happens: `break` and
`continue` by the execution of the innermost loop around the statement, in the same activation;
`return` by the activation of the function around the statement, whatever loops are in between. So no
signal leaves a call, a construction, an import or a unit, and none is left at the end of a step. -/
theorem signals_taken (steps : List SessionStep) :
    (Session.handle steps).state = Session.play steps ∧
    (∀ later c st handlers earlier,
      (Session.handle steps).notes = later ++ .raised c st handlers :: earlier →
      ∃ taker later', later = later' ++ [.caught c taker] ∧ c.taker? handlers = some taker ∧
        taker.Encloses st ∧ .entered taker ∈ earlier) ∧
    (∀ later h earlier, (Session.handle steps).notes = later ++ .entered h :: earlier →
      h.id = earlier.length) ∧
    (∀ b c, .left b (some (.signal c)) ∉ (Session.handle steps).notes) ∧
    ∀ step c, (SessionStep.play (Session.play steps) step).1 ≠ some (.stray c) := by
  have hfair := Session.handle_fair steps
  refine ⟨Session.handle_state steps, fun _ _ _ _ _ h => hfair.orderly.taken h,
    fun _ _ _ h => hfair.orderly.entered_id h, hfair.orderly.not_left, fun step c => ?_⟩
  rw [← Session.handle_state, ← step.handle_erases]
  exact (step.handle_fair hfair).2 c

/-- Whether a return is raised in a loop in a function. -/
def ControlEvent.leavesLoop : ControlEvent → Bool
  | .raised (.return _) _ (.loop _ _ :: .activation _ _ :: _) => true
  | _ => false

/-- A return from within a loop: the activation takes it, not the loop. -/
theorem signals_taken_return : ∃ later v st k t k' f outer earlier,
    (Session.handle (Session.script
      "fun f() \x7b while (true) \x7b return; \x7d \x7d f();")).notes =
      later ++ .caught (.return v) (.activation k' f) ::
        .raised (.return v) st (.loop k t :: .activation k' f :: outer) :: earlier ∧
    (∃ s ∈ f.body, s.Holds true st) ∧ .entered (.activation k' f) ∈ earlier := by
  have hraised : (Session.handle (Session.script
      "fun f() \x7b while (true) \x7b return; \x7d \x7d f();")).notes.any
      ControlEvent.leavesLoop = true := by decide +kernel
  obtain ⟨e, he, hleaves⟩ := List.any_eq_true.mp hraised
  obtain ⟨later, earlier, hnotes⟩ := List.append_of_mem he
  obtain ⟨-, htaken, -⟩ := signals_taken (Session.script
    "fun f() \x7b while (true) \x7b return; \x7d \x7d f();")
  unfold ControlEvent.leavesLoop at hleaves
  split at hleaves
  · obtain ⟨taker, later', rfl, htaker, hencloses, hentered⟩ := htaken _ _ _ _ _ hnotes
    cases htaker
    rw [List.append_assoc] at hnotes
    exact ⟨later', _, _, _, _, _, _, _, earlier, hnotes, hencloses, hentered⟩
  · cases hleaves

end Treewalk
