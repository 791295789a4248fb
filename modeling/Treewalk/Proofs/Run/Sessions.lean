import Treewalk.Proofs.Run.Erasure
import Treewalk.Proofs.Run.Safety

/-!
# Sessions

A session makes loaders and interpreters and runs units in them, in any order; between the units,
files, console and clock may be anything. Watched, it does the same and takes notes throughout.
-/
namespace Treewalk

inductive SessionStep
  | addLoader (searchPaths : List WrittenPath)
  | addInterpreter (unit : String) (loader : Ref .loader)
  /-- A text is prepared and the errors in it are reported. -/
  | compile (home : Ref .interpreter) (file source : String)
  /-- A text is prepared and executed. -/
  | run (home : Ref .interpreter) (file source : String)
  /-- What was prepared from a text is executed, on whatever globals and constants it was prepared
  with. -/
  | execute (home : Ref .interpreter) (text : UnitText)
  | resetReporter (home : Ref .interpreter)
  | arrange (files : FileTree) (workingDirectory : RealPath) (console : Console) (now : Float)

namespace SessionStep

/-- No unit is executed but those that are prepared for it at once. -/
def Current : SessionStep → Prop
  | .execute _ _ => False
  | _ => True

/-- A step, with the outcome if a unit was run. Units need an existing interpreter. -/
def play (w : World) : SessionStep → Option Outcome × World
  | .addLoader searchPaths => (none, w.addLoader searchPaths)
  | .addInterpreter unit loader => (none, w.addInterpreter unit loader)
  | .compile home file source => (none, (w.compile nestingLimit home file source).2)
  | .run home file source =>
      if home.index < w.interpreters.size then
        let r := w.run home file source
        (some r.1, r.2)
      else (none, w)
  | .execute home text =>
      if home.index < w.interpreters.size then
        let r := w.execute home text.unit
        (some r.1, r.2)
      else (none, w)
  | .resetReporter home => (none, w.resetReporter home)
  | .arrange files workingDirectory console now =>
      (none, { w with
        files := files, workingDirectory := workingDirectory, console := console, now := now })

end SessionStep

/-- How the execution of a unit ended. -/
def Outcome.ofResult {σ : Type} (u : CompiledUnit) :
    EStateM.Result Interrupt σ Eval.Completion → Outcome × σ
  | .ok completion s => (.ended u completion, s)
  | .error (.error e) s => (.ended u (.failed e), s)
  | .error (.crash c) s => (.crashed c, s)
  | .error .overflow s => (.crashed .nestingOutsideCalls, s)
  | .error (.signal c) s => (.stray c, s)
  | .error .exhausted s => (.exhausted, s)

theorem World.execute_eq (w : World) (home : Ref .interpreter) (u : CompiledUnit) :
    w.execute home u = Outcome.ofResult u
      (Eval.execute (Eval.statement grantedRounds (nestingLimit / 2)) home u w) := by
  unfold World.execute World.executeWithin
  cases Eval.execute (Eval.statement grantedRounds (nestingLimit / 2)) home u w with
  | ok completion t => rfl
  | error i t => cases i <;> rfl

namespace Watching

/-- Executes a text. -/
def executeText (home : Ref .interpreter) (text : UnitText) (s : Watched World Event) :
    Outcome × Watched World Event :=
  Outcome.ofResult text.unit
    (execute (statement grantedRounds (nestingLimit / 2)) home text s)

theorem executeText_erases (home : Ref .interpreter) (text : UnitText)
    (s : Watched World Event) :
    ((executeText home text s).1, (executeText home text s).2.state) =
      s.state.execute home text.unit := by
  have herases := execute_erases (Watching.erases grantedRounds (nestingLimit / 2)).statement home
    text s
  rw [World.execute_eq, ← herases]
  unfold executeText
  cases execute (statement grantedRounds (nestingLimit / 2)) home text s with
  | ok completion t => rfl
  | error i t => cases i <;> rfl

theorem executeText_safe {current : Prop} {n : Nat} {s : Watched World Event}
    {home : Ref .interpreter} (text : UnitText) (h : Good current n s)
    (hhome : home.index < s.state.interpreters.size) (hn : n ≤ home.index)
    (hcurrent : current → text.constants = (s.state.interpreters.get home).constants) :
    Goes current n s (executeText home text s).2 ∧
      ∀ hops, (executeText home text s).1 ≠ .crashed (.shortChain hops) := by
  have hsafe := execute_safe (levelSafe current grantedRounds (nestingLimit / 2)).statement h hhome
    hn hcurrent
  unfold Safe at hsafe
  unfold executeText
  cases hr : execute (statement grantedRounds (nestingLimit / 2)) home text s with
  | ok completion t =>
      rw [hr] at hsafe
      exact ⟨hsafe.1, fun _ he => nomatch he⟩
  | error i t =>
      rw [hr] at hsafe
      obtain ⟨hgoes, hfine⟩ := hsafe
      cases i with
      | crash c =>
          refine ⟨hgoes, fun hops he => ?_⟩
          cases he
          exact hfine
      | _ => exact ⟨hgoes, fun _ he => nomatch he⟩

end Watching

namespace SessionStep

/-- A watched step. -/
def watch (s : Watched World Event) (step : SessionStep) : Option Outcome × Watched World Event :=
  match step with
  | .run home file source =>
      if home.index < s.state.interpreters.size then
        let text := s.state.text nestingLimit home file source
        let prepared := (s.state.compile nestingLimit home file source).2
        let r := Watching.executeText home text { s with state := prepared }
        (some r.1, r.2)
      else (none, s)
  | .execute home text =>
      if home.index < s.state.interpreters.size then
        let r := Watching.executeText home text s
        (some r.1, r.2)
      else (none, s)
  | step =>
      let r := step.play s.state
      (r.1, { s with state := r.2 })

/-- Watching a step changes nothing. -/
theorem watch_erases (s : Watched World Event) (step : SessionStep) :
    ((step.watch s).1, (step.watch s).2.state) = step.play s.state := by
  cases step with
  | run home file source =>
      unfold watch play
      by_cases hhome : home.index < s.state.interpreters.size
      · simp only [hhome, if_true]
        have herases := Watching.executeText_erases home
          (s.state.text nestingLimit home file source)
          { s with state := (s.state.compile nestingLimit home file source).2 }
        rw [← World.compile_fst] at herases
        unfold World.run
        rw [← herases]
      · simp only [hhome, if_false]
  | execute home text =>
      unfold watch play
      by_cases hhome : home.index < s.state.interpreters.size
      · simp only [hhome, if_true]
        rw [← Watching.executeText_erases home text s]
      · simp only [hhome, if_false]
  | _ => rfl

/-- Every step goes from a good state to another one, and no scope is ever missing. -/
theorem watch_safe {current : Prop} {s : Watched World Event} (step : SessionStep)
    (h : Good current 0 s) (hcurrent : current → step.Current) :
    Goes current 0 s (step.watch s).2 ∧
      ∀ hops, (step.watch s).1 ≠ some (.crashed (.shortChain hops)) := by
  cases step with
  | addLoader searchPaths =>
      have hw : s.state.Alike (s.state.addLoader searchPaths) :=
        .intro rfl rfl rfl rfl (fun _ => rfl) (fun _ => rfl) (fun _ => rfl) fun _ => rfl
      exact ⟨h.alike hw, fun _ he => nomatch he⟩
  | addInterpreter unit loader =>
      exact ⟨h.addInterpreter unit loader, fun _ he => nomatch he⟩
  | compile home file source =>
      exact ⟨h.alike (s.state.alike_compile _ _ _ _), fun _ he => nomatch he⟩
  | run home file source =>
      unfold watch
      by_cases hhome : home.index < s.state.interpreters.size
      · simp only [hhome, if_true]
        have halike := s.state.alike_compile nestingLimit home file source
        have hprepared := h.alike halike
        have hstill : home.index <
            (s.state.compile nestingLimit home file source).2.interpreters.size := by
          rw [(halike 0).interpreters]
          exact hhome
        have hrun := Watching.executeText_safe (s.state.text nestingLimit home file source)
          hprepared.good hstill (Nat.zero_le _) fun _ => (halike.same_constants home).symm
        exact ⟨hprepared.trans hrun.1, fun hops he => hrun.2 hops (Option.some.inj he)⟩
      · simp only [hhome, if_false]
        exact ⟨h.here, fun _ he => nomatch he⟩
  | execute home text =>
      unfold watch
      by_cases hhome : home.index < s.state.interpreters.size
      · simp only [hhome, if_true]
        have hexecute := Watching.executeText_safe text h hhome (Nat.zero_le _)
          fun hcur => (hcurrent hcur).elim
        exact ⟨hexecute.1, fun hops he => hexecute.2 hops (Option.some.inj he)⟩
      · simp only [hhome, if_false]
        exact ⟨h.here, fun _ he => nomatch he⟩
  | resetReporter home =>
      have hw := World.alike_updateInterpreter s.state home
        (f := fun i => { i with reporter := i.reporter.reset }) fun _ => ⟨rfl, rfl, rfl⟩
      exact ⟨h.alike hw, fun _ he => nomatch he⟩
  | arrange files workingDirectory console now =>
      have hw : s.state.Alike ({ s.state with
          files := files, workingDirectory := workingDirectory, console := console, now := now }) :=
        .intro rfl rfl rfl rfl (fun _ => rfl) (fun _ => rfl) (fun _ => rfl) fun _ => rfl
      exact ⟨h.alike hw, fun _ he => nomatch he⟩

end SessionStep

namespace Session

/-- The world after a session, which begins with nothing. -/
def play (steps : List SessionStep) : World := steps.foldl (fun w step => (step.play w).2) {}

theorem play_append (steps more : List SessionStep) :
    play (steps ++ more) = more.foldl (fun w step => (step.play w).2) (play steps) :=
  List.foldl_append

/-- The same with all notes, latest first. -/
def watch (steps : List SessionStep) : Watched World Event :=
  steps.foldl (fun s step => (step.watch s).2) ⟨{}, []⟩

theorem watch_state (steps : List SessionStep) : (watch steps).state = play steps :=
  (List.foldl_hom Watched.state fun s step => (congrArg Prod.snd (step.watch_erases s)).symm).symm

/-- What is true in the beginning and stays true with every step is true after a session. -/
theorem watch_induction {P : Watched World Event → Prop} {steps : List SessionStep}
    (hstart : P ⟨{}, []⟩) (hstep : ∀ s, P s → ∀ step ∈ steps, P (step.watch s).2) :
    P (watch steps) :=
  List.foldlRecOn steps _ hstart hstep

theorem good_start (current : Prop) : Good current 0 ⟨{}, []⟩ := by
  refine ⟨?_, .nil, Nat.le_refl 0⟩
  constructor
  case outward => exact fun _ _ hp => nomatch hp
  case opened => exact fun _ _ hc => nomatch hc
  case single => exact fun _ _ _ hc => nomatch hc
  case globals => exact fun _ hi => nomatch hi
  case apart => exact fun _ _ hi => nomatch hi
  case modules => exact fun _ => .inl rfl
  case past => exact fun _ _ _ _ hw => nomatch hw
  case started => exact fun _ _ _ hb => nomatch hb
  case functions => exact fun _ hr => nomatch hr
  case methods => exact fun _ _ _ hf => nomatch hf
  case constants => exact fun _ _ _ _ _ hb => nomatch hb

/-- Every session keeps its state good. -/
theorem watch_good {current : Prop} {steps : List SessionStep}
    (hcurrent : current → ∀ step ∈ steps, step.Current) : Good current 0 (watch steps) :=
  watch_induction (good_start current) fun _ h step hstep =>
    (step.watch_safe h fun hc => hcurrent hc step hstep).1.good

end Session
end Treewalk
