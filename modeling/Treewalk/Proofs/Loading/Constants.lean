import Treewalk.Proofs.Loading.Course
import Treewalk.Proofs.Scopes.Constants

/-!
# Global constants over sessions

The constants of an interpreter change only when a unit is executed in it: then they are those with
which the unit was prepared and those that it declares. Units that are executed as they are prepared
only add constants; a unit that was prepared before a name became a constant makes the name none.
-/
namespace Treewalk

namespace World
variable {w : World} {home r : Ref .interpreter} {c : String}

theorem constants_prepare (u : CompiledUnit) (hr : r.index < w.interpreters.size) :
    ((w.prepare home u).interpreters.get r).constants =
      if r = home then u.constants else (w.interpreters.get r).constants := by
  by_cases he : r = home
  · rw [if_pos he, he, w.get_prepare u (he ▸ hr)]
  · rw [if_neg he]
    exact congrArg Interpreter.constants (Arena.get_set_of_ne _ _ (Ne.symm he))

/-- Only an accepted unit changes constants, and only those of its interpreter. -/
theorem constants_execute (home : Ref .interpreter) (u : CompiledUnit)
    (hr : r.index < w.interpreters.size) :
    r.index < (w.execute home u).2.interpreters.size ∧
      ((w.execute home u).2.interpreters.get r).constants =
        if r = home ∧ u.ok = true then u.constants else (w.interpreters.get r).constants := by
  have hcourse := w.execute_course home u
  split at hcourse
  · rename_i hok
    obtain ⟨t, ht, hend⟩ := hcourse
    have hprepared : r.index < (w.prepare home u).interpreters.size :=
      Nat.lt_of_lt_of_eq hr (Arena.size_set ..).symm
    have hsize : r.index < t.state.interpreters.size :=
      Nat.lt_of_lt_of_le hprepared ht.interpreters.size
    have hconstants : (t.state.interpreters.get r).constants =
        if r = home ∧ u.ok = true then u.constants else (w.interpreters.get r).constants := by
      simp only [hok, and_true]
      rw [ht.interpreters.get r hprepared]
      exact constants_prepare u hr
    rcases hend with hend | ⟨e, hend⟩
    · rw [hend]
      exact ⟨hsize, hconstants⟩
    · rw [hend]
      have halike := t.state.alike_reportRuntime home e
      exact ⟨(halike 0).interpreters.symm ▸ hsize, (halike.same_constants r).trans hconstants⟩
  · rename_i hok
    rw [hcourse, if_neg fun h => hok h.2]
    exact ⟨hr, rfl⟩

end World

namespace SessionStep
variable {w : World} {home : Ref .interpreter}

/-- The text that a step executes in an interpreter, if it is accepted. -/
def accepted? (w : World) (home : Ref .interpreter) : SessionStep → Option UnitText
  | .run home' file source =>
      let text := w.text nestingLimit home' file source
      if home = home' ∧ text.unit.ok = true then some text else none
  | .execute home' text => if home = home' ∧ text.unit.ok = true then some text else none
  | _ => none

theorem accepted?_ok {step : SessionStep} {text : UnitText}
    (h : step.accepted? w home = some text) : text.unit.ok = true := by
  cases step with
  | run home' file source =>
      obtain ⟨⟨-, hok⟩, he⟩ := Option.ite_none_right_eq_some.mp h
      exact Option.some.inj he ▸ hok
  | execute home' text =>
      obtain ⟨⟨-, hok⟩, he⟩ := Option.ite_none_right_eq_some.mp h
      exact Option.some.inj he ▸ hok
  | _ => cases h

/-- What the execution of an accepted text, or of none, does to the constants of an interpreter. -/
theorem constants_executed (home' : Ref .interpreter) (text : UnitText)
    (hhome : home.index < w.interpreters.size) :
    ((w.execute home' text.unit).2.interpreters.get home).constants =
      match (if home = home' ∧ text.unit.ok = true then some text else none) with
      | some text => text.unit.constants
      | none => (w.interpreters.get home).constants := by
  rw [(World.constants_execute home' text.unit hhome).2]
  split
  · rfl
  · rfl

/-- What a step does to the constants of an interpreter. -/
theorem constants_play (step : SessionStep) (hhome : home.index < w.interpreters.size) :
    home.index < (step.play w).2.interpreters.size ∧
      ((step.play w).2.interpreters.get home).constants =
        match step.accepted? w home with
        | some text => text.unit.constants
        | none => (w.interpreters.get home).constants := by
  cases step with
  | addLoader searchPaths => exact ⟨hhome, rfl⟩
  | addInterpreter unit loader =>
      obtain ⟨console, hadd⟩ := w.addInterpreter_eq unit loader
      change _ < (w.addInterpreter unit loader).interpreters.size ∧
        ((w.addInterpreter unit loader).interpreters.get home).constants = _
      rw [hadd]
      refine ⟨Nat.lt_of_lt_of_eq (Nat.lt_succ_of_lt hhome) (Arena.size_add ..).symm, ?_⟩
      exact congrArg Interpreter.constants (Arena.get_add_of_lt _ _ hhome)
  | compile home' file source =>
      have halike := w.alike_compile nestingLimit home' file source
      exact ⟨(halike 0).interpreters.symm ▸ hhome, halike.same_constants home⟩
  | run home' file source =>
      have halike := w.alike_compile nestingLimit home' file source
      have hcompiled : home.index < (w.compile nestingLimit home' file source).2.interpreters.size :=
        (halike 0).interpreters.symm ▸ hhome
      unfold play
      by_cases hhome' : home'.index < w.interpreters.size
      · simp only [hhome', if_true]
        refine ⟨(World.constants_execute home' _ hcompiled).1, ?_⟩
        refine (constants_executed home' (w.text nestingLimit home' file source) hcompiled).trans ?_
        rw [halike.same_constants home]
        rfl
      · have hne : home ≠ home' := fun he => hhome' (he ▸ hhome)
        simp only [hhome', accepted?, hne, false_and, if_false]
        exact ⟨hhome, trivial⟩
  | execute home' text =>
      unfold play
      by_cases hhome' : home'.index < w.interpreters.size
      · simp only [hhome', if_true]
        exact ⟨(World.constants_execute home' text.unit hhome).1, constants_executed home' text hhome⟩
      · have hne : home ≠ home' := fun he => hhome' (he ▸ hhome)
        simp only [hhome', accepted?, hne, false_and, if_false]
        exact ⟨hhome, trivial⟩
  | resetReporter home' =>
      have halike := World.alike_updateInterpreter w home'
        (f := fun i => { i with reporter := i.reporter.reset }) fun _ => ⟨rfl, rfl, rfl⟩
      exact ⟨(halike 0).interpreters.symm ▸ hhome, halike.same_constants home⟩
  | arrange files workingDirectory console now => exact ⟨hhome, rfl⟩

end SessionStep

/-- An interpreter that has constants exists. -/
theorem World.exists_of_constant {w : World} {home : Ref .interpreter} {c : String}
    (h : c ∈ (w.interpreters.get home).constants) : home.index < w.interpreters.size := by
  by_contra hge
  rw [Arena.get_of_le _ (Nat.le_of_not_lt hge)] at h
  cases h

namespace SessionStep
variable {w : World} {home : Ref .interpreter} {c : String} {step : SessionStep}

/-- A step that makes a constant none: an accepted unit is executed that was prepared where the name
was no constant, and does not declare it as one. -/
def Forgets (home : Ref .interpreter) (c : String) (step : SessionStep) : Prop :=
  ∃ text, step = .execute home text ∧ text.unit.ok = true ∧ c ∉ text.constants ∧
    (c, .constant) ∉ declarations text.unit.statements

theorem Current.not_forgets (h : step.Current) : ¬step.Forgets home c := by
  rintro ⟨text, rfl, -⟩
  exact h

/-- Units that are prepared where the name is a constant keep it. -/
theorem constant_after_iff (h : c ∈ (w.interpreters.get home).constants) :
    c ∈ ((step.play w).2.interpreters.get home).constants ↔ ¬step.Forgets home c := by
  have hhome := World.exists_of_constant h
  rw [(step.constants_play hhome).2]
  cases haccepted : step.accepted? w home with
  | none =>
      refine iff_of_true h ?_
      rintro ⟨text, rfl, hok, -⟩
      simp only [accepted?, hok, and_self, if_true] at haccepted
      cases haccepted
  | some text =>
      have hok := accepted?_ok haccepted
      rw [text.mem_constants hok]
      cases step with
      | run home' file source =>
          refine iff_of_true (.inl ?_) (Current.not_forgets trivial)
          obtain ⟨⟨rfl, -⟩, he⟩ := Option.ite_none_right_eq_some.mp haccepted
          exact Option.some.inj he ▸ h
      | execute home' text' =>
          obtain ⟨⟨rfl, -⟩, he⟩ := Option.ite_none_right_eq_some.mp haccepted
          cases he
          constructor
          · rintro (hc | hc) ⟨_, he, -, hnot, hnot'⟩
            · cases he
              exact hnot hc
            · cases he
              exact hnot' hc
          · intro hnot
            by_contra hboth
            exact hnot ⟨text, rfl, hok, fun hc => hboth (.inl hc), fun hc => hboth (.inr hc)⟩
      | _ => cases haccepted

end SessionStep

/-- A constant stays one as long as no step forgets it. -/
theorem Session.constant_kept {w : World} {home : Ref .interpreter} {c : String}
    {steps : List SessionStep} (h : c ∈ (w.interpreters.get home).constants)
    (hsteps : ∀ step ∈ steps, ¬step.Forgets home c) :
    c ∈ ((steps.foldl (fun w step => (step.play w).2) w).interpreters.get home).constants :=
  List.foldlRecOn steps _ (motive := fun w : World => c ∈ (w.interpreters.get home).constants) h
    fun _ h step hstep => (SessionStep.constant_after_iff h).mpr (hsteps step hstep)

/-- A name that is a constant of an interpreter stays one through every step that does not forget it,
whatever else happens in between; and a step forgets it only by executing an accepted unit that was
prepared where the name was no constant. -/
theorem constant_forgotten_iff {before : List SessionStep} {home : Ref .interpreter} {c : String}
    (h : c ∈ ((Session.play before).interpreters.get home).constants) :
    (∀ step, c ∉ ((Session.play (before ++ [step])).interpreters.get home).constants ↔
      ∃ text, step = .execute home text ∧ text.unit.ok = true ∧ c ∉ text.constants ∧
        (c, .constant) ∉ declarations text.unit.statements) ∧
    ∀ later, (∀ step ∈ later, ¬step.Forgets home c) →
      c ∈ ((Session.play (before ++ later)).interpreters.get home).constants := by
  have hplay : ∀ later, Session.play (before ++ later) =
      later.foldl (fun w step => (step.play w).2) (Session.play before) := fun later =>
    List.foldl_append
  constructor
  · intro step
    rw [hplay]
    exact (not_congr (SessionStep.constant_after_iff h)).trans not_not
  · intro later hlater
    rw [hplay]
    exact Session.constant_kept h hlater

/-- An empty unit that was prepared at the start is executed after `c` was declared. -/
theorem constant_forgotten_iff_empty :
    let before := [.addLoader [], .addInterpreter "__main__" ⟨0⟩,
      .run ⟨0⟩ "<lox>" "const c = true;"]
    let text := (Session.play (before.take 2)).text nestingLimit ⟨0⟩ "<lox>" ""
    "c" ∈ ((Session.play before).interpreters.get ⟨0⟩).constants ∧
      "c" ∉ ((Session.play (before ++ [.execute ⟨0⟩ text])).interpreters.get ⟨0⟩).constants := by
  intro before text
  have h : "c" ∈ ((Session.play before).interpreters.get ⟨0⟩).constants := by decide +kernel
  have hok : text.unit.ok = true := by decide +kernel
  have hnot : "c" ∉ text.constants ∧ ("c", .constant) ∉ declarations text.unit.statements := by
    decide +kernel
  exact ⟨h, ((constant_forgotten_iff h).1 _).mpr ⟨text, rfl, hok, hnot⟩⟩

/-- The constants that an accepted unit declares are constants when it has been run, however it
ended. -/
theorem SessionStep.constant_declared {w : World} {home : Ref .interpreter} {file source c : String}
    (hhome : home.index < w.interpreters.size)
    (hok : (w.text nestingLimit home file source).unit.ok = true)
    (hc : (c, .constant) ∈ declarations (w.text nestingLimit home file source).parsed.statements) :
    c ∈ ((SessionStep.run home file source |>.play w).2.interpreters.get home).constants := by
  have hplay := (SessionStep.constants_play (.run home file source) hhome).2
  simp only [accepted?, hok, and_self, if_true] at hplay
  rw [hplay, UnitText.mem_constants hok, declarations_of_bare (UnitText.bare_statements hok)]
  exact .inr hc

/-- When an accepted unit that declares a constant has been run, then however it ended and whatever
was run since, in units that were accepted, rejected or failed, a unit that declares the name again
outside all scopes, or assigns to it where no frame knows it, is rejected, and running it changes
nothing but the error output and the reporter. -/
theorem constants_respected {before mid : List SessionStep} {home : Ref .interpreter}
    {file source c : String} (hmid : ∀ step ∈ mid, step.Current)
    (hhome : home.index < (Session.play before).interpreters.size)
    (hok : ((Session.play before).text nestingLimit home file source).unit.ok = true)
    (hc : (c, .constant) ∈ declarations
      ((Session.play before).text nestingLimit home file source).parsed.statements) :
    let w := Session.play (before ++ .run home file source :: mid)
    ∀ file' source', (w.text nestingLimit home file' source').Overrides c →
      let u := (w.text nestingLimit home file' source').unit
      let r := (SessionStep.run home file' source').play w
      u.ok = false ∧ r.1 = some (.ended u .rejected) ∧ w.SameBut home r.2 := by
  intro w file' source' hoverrides u r
  have hkept : c ∈ (w.interpreters.get home).constants := by
    unfold w Session.play
    rw [List.foldl_append, List.foldl_cons]
    exact Session.constant_kept (SessionStep.constant_declared hhome hok hc)
      fun step hstep => (hmid step hstep).not_forgets
  -- Being a constant of the interpreter is all that the check of the new unit looks at.
  have hrejected : u.ok = false := UnitText.rejected_of_overrides hoverrides hkept
  have hplay : r = (some (w.run home file' source').1, (w.run home file' source').2) :=
    if_pos (World.exists_of_constant hkept)
  rw [hplay]
  exact ⟨hrejected, congrArg some (congrArg Prod.fst (World.run_rejected hrejected)),
    .run hrejected⟩

/-- A constant, a unit that fails, one that is rejected, and then a function of the constant's name. -/
theorem constants_respected_function :
    let before := [.addLoader [], .addInterpreter "__main__" ⟨0⟩]
    let mid := [SessionStep.run ⟨0⟩ "<lox>" "nil();", .run ⟨0⟩ "<lox>" "c = nil;"]
    let w := Session.play (before ++ .run ⟨0⟩ "<lox>" "const c = true;" :: mid)
    (∀ step ∈ mid, step.Current) ∧
      ((SessionStep.run ⟨0⟩ "<lox>" "fun c() {}").play w).1 =
        some (.ended (w.text nestingLimit ⟨0⟩ "<lox>" "fun c() {}").unit .rejected) := by
  intro before mid w
  have hmid : ∀ step ∈ mid, step.Current := by
    intro step hstep
    rcases List.mem_cons.mp hstep with rfl | hstep
    · trivial
    · rw [List.mem_singleton.mp hstep]
      trivial
  have hrespected := @constants_respected before mid ⟨0⟩ "<lox>" "const c = true;" "c" hmid
    (by decide +kernel) (by decide +kernel) (by decide +kernel)
  have hoverrides : (w.text nestingLimit ⟨0⟩ "<lox>" "fun c() {}").Overrides "c" :=
    .inl ⟨.variable, by decide +kernel⟩
  exact ⟨hmid, (hrespected _ _ hoverrides).2.1⟩

end Treewalk
