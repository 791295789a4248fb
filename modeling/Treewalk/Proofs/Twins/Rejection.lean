import Treewalk.Proofs.Twins.Runs

/-!
# Rejected units

A unit with static errors is not run, and what follows in a session is the same as without it: only
its error texts have been written, and the reporter of its interpreter has counted them.
-/
namespace Treewalk

/-- The same but for the error output and for what the reporter of an interpreter remembers of static
errors. -/
structure World.SameBut (home : Ref .interpreter) (w w' : World) : Prop where
  rest : w' = { w with
    interpreters := w'.interpreters
    console := { w.console with err := w'.console.err } }
  size : w'.interpreters.size = w.interpreters.size
  others : ∀ r, r ≠ home → w'.interpreters.get r = w.interpreters.get r
  own : ∃ hadError errorCount, w'.interpreters.get home = { w.interpreters.get home with
    reporter := { (w.interpreters.get home).reporter with
      hadError := hadError, errorCount := errorCount } }

/-- The likeness of worlds that are the same but for that, with the error output so far. -/
def Likeness.record (home : Ref .interpreter) (before before' : String) : Likeness where
  home := home
  moved := fun n => n = 0
  errors := fun e e' => ∃ text, e = before ++ text ∧ e' = before' ++ text
  interpreters := fun i i' => ∃ hadError errorCount, i' = { i with
    reporter := { i.reporter with hadError := hadError, errorCount := errorCount } }
  unmoved := rfl
  warn := by
    rintro _ _ text ⟨text', rfl, rfl⟩
    exact ⟨text' ++ text, String.append_assoc .., String.append_assoc ..⟩
  warnRuntime := by
    rintro _ _ _ r line message rfl ⟨text', rfl, rfl⟩
    exact ⟨text' ++ r.runtimeText line message, String.append_assoc .., String.append_assoc ..⟩
  refl := fun i => ⟨i.reporter.hadError, i.reporter.errorCount, rfl⟩
  same := by
    rintro _ _ ⟨_, _, rfl⟩
    exact ⟨rfl, rfl, rfl, rfl⟩
  noteStatic := by
    rintro _ _ ⟨_, errorCount, rfl⟩
    exact ⟨true, errorCount + 1, rfl⟩
  noteRuntime := by
    rintro _ _ ⟨hadError, errorCount, rfl⟩
    exact ⟨hadError, errorCount, rfl⟩
  reset := by
    rintro _ _ ⟨_, errorCount, rfl⟩
    exact ⟨false, errorCount, rfl⟩
  prepare := by
    rintro _ _ _ _ ⟨hadError, errorCount, rfl⟩
    exact ⟨hadError, errorCount, rfl⟩

section
variable {home : Ref .interpreter} {w w' : World} {before before' : String}

theorem World.SameBut.refl (home : Ref .interpreter) (w : World) : w.SameBut home w :=
  ⟨rfl, rfl, fun _ _ => rfl, _, _, rfl⟩

theorem World.SameBut.twins (h : w.SameBut home w') :
    (Likeness.record home w.console.err w'.console.err).Twins w w' := by
  obtain ⟨hrest, hsize, hothers, hown⟩ := h
  rw [hrest]
  constructor
  case functions => exact .refl (fun _ => Likeness.Closures.refl) _
  case classes => exact .refl (fun _ => Likeness.Classes.refl) _
  case interpreters =>
    refine ⟨hsize, fun r => ?_⟩
    by_cases hr : r = home
    · subst hr
      exact .inr ⟨rfl, hown⟩
    · exact .inl (hothers r hr)
  case errors => exact ⟨"", String.append_empty.symm, String.append_empty.symm⟩
  all_goals rfl

namespace Likeness
variable {d : Likeness}

theorem Closures.eq (hd : ∀ n, d.moved n → n = 0) {f f' : Closure} (h : d.Closures f f') :
    f' = f := by
  obtain ⟨n, hn, rfl⟩ := h
  rw [hd n hn, Closure.down_zero]

theorem Classes.eq (hd : ∀ n, d.moved n → n = 0) {c c' : ClassObject} (h : d.Classes c c') :
    c' = c := by
  obtain ⟨n, hn, rfl⟩ := h
  rw [hd n hn, ClassObject.down_zero]

/-- Where no code has moved, functions and classes are the same. -/
theorem Twins.rest_of_unmoved (hd : ∀ n, d.moved n → n = 0) (h : d.Twins w w') : w' = { w with
    interpreters := w'.interpreters
    console := { w.console with err := w'.console.err } } := by
  have hfunctions := (Arena.Matches.mk h.functions.size fun r => (h.functions.get r).eq hd).eq
  have hclasses := (Arena.Matches.mk h.classes.size fun r => (h.classes.get r).eq hd).eq
  refine h.rest.trans ?_
  rw [hfunctions, hclasses]

theorem Twins.sameBut (h : (record home before before').Twins w w') : w.SameBut home w' := by
  refine ⟨h.rest_of_unmoved fun _ hn => hn, h.interpreters.size, fun r hr => ?_, ?_⟩
  · rcases h.interpreters.get r with hget | ⟨hhome, -⟩
    · exact hget
    · exact (hr hhome).elim
  · rcases h.interpreters.get home with hget | ⟨-, hown⟩
    · exact ⟨_, _, hget⟩
    · exact hown

/-- Units end in the same way. -/
theorem Completions.eq (hd : ∀ n, d.moved n → n = 0) {c c' : Eval.Completion}
    (h : d.Completions c c') : c' = c := by
  cases h with
  | rejected => rfl
  | completed => rfl
  | failed token cause hn => rw [hd _ hn, Token.down_zero]

theorem Interrupts.eq (hd : ∀ n, d.moved n → n = 0) {i i' : Interrupt} (h : d.Interrupts i i') :
    i' = i := by
  cases h with
  | same => rfl
  | down token cause hn => rw [hd _ hn, Token.down_zero]

/-- A unit is executed alike. -/
theorem Twins.execute (h : d.Twins w w') (hd : ∀ n, d.moved n → n = 0) (r : Ref .interpreter)
    (u : CompiledUnit) :
    (w'.execute r u).1 = (w.execute r u).1 ∧ d.Twins (w.execute r u).2 (w'.execute r u).2 := by
  have hagree := agree_execute (levelAgrees d grantedRounds (nestingLimit / 2)).statement r u w w' h
  rw [World.execute_eq, World.execute_eq]
  generalize Eval.execute (Eval.statement grantedRounds (nestingLimit / 2)) r u w = x at hagree
  generalize Eval.execute (Eval.statement grantedRounds (nestingLimit / 2)) r u w' = x' at hagree
  cases hagree with
  | ok hc ht =>
      rw [hc.eq hd]
      exact ⟨rfl, ht⟩
  | @error i _ _ _ hi ht =>
      rw [hi.eq hd]
      cases i <;> exact ⟨rfl, ht⟩

end Likeness
end

/-! ### Steps -/

/-- Between units the console may be exchanged. -/
def SessionStep.Arranges : SessionStep → Prop
  | .arrange .. => True
  | _ => False

namespace Likeness.Twins
variable {home : Ref .interpreter} {w w' : World} {before before' : String}

theorem constants (h : (record home before before').Twins w w') (r : Ref .interpreter) :
    (w'.interpreters.get r).constants = (w.interpreters.get r).constants := by
  rcases h.interpreters.get r with hget | ⟨-, _, _, hget⟩ <;> rw [hget]

theorem run (h : (record home before before').Twins w w') (r : Ref .interpreter)
    (file source : String) : (w'.run r file source).1 = (w.run r file source).1 ∧
      (record home before before').Twins (w.run r file source).2 (w'.run r file source).2 := by
  obtain ⟨hunit, hprepared⟩ := h.compile nestingLimit r file source (h.constants r)
  unfold World.run
  dsimp only
  rw [hunit]
  exact hprepared.execute (fun _ hn => hn) r _

/-- A step does the same. -/
theorem play (h : (record home before before').Twins w w') (step : SessionStep)
    (hstep : ¬step.Arranges) : (step.play w').1 = (step.play w).1 ∧
      (record home before before').Twins (step.play w).2 (step.play w').2 := by
  cases step with
  | addLoader searchPaths =>
      refine ⟨rfl, { h with loaders := ?_ }⟩
      change w'.loaders.add _ = w.loaders.add _
      rw [h.loaders]
  | addInterpreter unit loader => exact ⟨rfl, h.addInterpreter unit loader⟩
  | compile r file source =>
      exact ⟨rfl, (h.compile nestingLimit r file source (h.constants r)).2⟩
  | run r file source =>
      unfold SessionStep.play
      rw [h.interpreters.size]
      by_cases hr : r.index < w.interpreters.size
      · simp only [hr, if_true]
        exact ⟨congrArg some (h.run r file source).1, (h.run r file source).2⟩
      · simp only [hr, if_false]
        exact ⟨trivial, h⟩
  | execute r text =>
      unfold SessionStep.play
      rw [h.interpreters.size]
      by_cases hr : r.index < w.interpreters.size
      · simp only [hr, if_true]
        have hexecute := h.execute (fun _ hn => hn) r text.unit
        exact ⟨congrArg some hexecute.1, hexecute.2⟩
      · simp only [hr, if_false]
        exact ⟨trivial, h⟩
  | resetReporter r => exact ⟨rfl, h.updateInterpreter r (record home before before').reset⟩
  | arrange files workingDirectory console now => exact (hstep trivial).elim

end Likeness.Twins

namespace World.SameBut
variable {home : Ref .interpreter} {w w' : World}

/-- What a step does is the same, and so is what it writes. -/
theorem play (h : w.SameBut home w') (step : SessionStep) :
    (step.play w').1 = (step.play w).1 ∧ (step.play w).2.SameBut home (step.play w').2 ∧
      (¬step.Arranges → ∃ text, (step.play w).2.console.err = w.console.err ++ text ∧
        (step.play w').2.console.err = w'.console.err ++ text) := by
  by_cases hstep : step.Arranges
  · cases step with
    | arrange files workingDirectory console now =>
        refine ⟨rfl, ⟨?_, h.size, h.others, h.own⟩, fun hn => (hn trivial).elim⟩
        unfold SessionStep.play
        rw [h.rest]
    | _ => cases hstep
  · obtain ⟨houtcome, htwins⟩ := h.twins.play step hstep
    exact ⟨houtcome, htwins.sameBut, fun _ => htwins.errors⟩

theorem foldl (h : w.SameBut home w') (steps : List SessionStep) :
    (steps.foldl (fun w step => (step.play w).2) w).SameBut home
      (steps.foldl (fun w step => (step.play w).2) w') :=
  List.foldl_rel h fun step _ _ _ h => (h.play step).2.1

theorem trans {w'' : World} (h : w.SameBut home w') (h' : w'.SameBut home w'') :
    w.SameBut home w'' := by
  refine ⟨?_, h'.size.trans h.size, fun r hr => (h'.others r hr).trans (h.others r hr), ?_⟩
  · rw [h'.rest, h.rest]
  · obtain ⟨_, _, hown⟩ := h.own
    obtain ⟨hadError, errorCount, hown'⟩ := h'.own
    exact ⟨hadError, errorCount, by rw [hown', hown]⟩

theorem warn (home : Ref .interpreter) (w : World) (text : String) :
    w.SameBut home { w with console := w.console.warn text } :=
  ⟨rfl, rfl, fun _ _ => rfl, _, _, rfl⟩

theorem log (home : Ref .interpreter) (w : World) (l : LogLine) : w.SameBut home (w.log l) := by
  unfold World.log Console.log
  split
  · exact .warn home w l.text
  · exact .refl home w

theorem publish (home : Ref .interpreter) (w : World) (notice : Notice) :
    w.SameBut home (w.publish home notice) := by
  cases notice with
  | log l => exact .log home w l
  | error e =>
      refine (SameBut.warn home w _).trans ⟨rfl, Arena.size_set .., fun r hr => ?_, ?_⟩
      · exact Arena.get_set_of_ne _ _ (Ne.symm hr)
      · rcases Nat.lt_or_ge home.index w.interpreters.size with hlt | hge
        · exact ⟨_, _, Arena.get_set_self _ _ hlt⟩
        · have hnone : (w.publish home (.error e)).interpreters = w.interpreters :=
            Arena.set_of_le _ _ hge
          exact ⟨(w.interpreters.get home).reporter.hadError,
            (w.interpreters.get home).reporter.errorCount, congrArg (Arena.get · home) hnone⟩

/-- Preparing a text changes nothing else. -/
theorem compile (w : World) (levels : Nat) (home : Ref .interpreter) (file source : String) :
    w.SameBut home (w.compile levels home file source).2 := by
  exact List.foldlRecOn _ _ (motive := w.SameBut home) (.refl home w)
    fun v h notice _ => h.trans (publish home v notice)

end World.SameBut

/-! ### Counting errors -/

/-- A unit has as many errors as are reported. -/
theorem CompiledUnit.countErrors_ofSource (levels : Nat) (file source : String)
    (globals constants : List String) :
    countErrors (ofSource levels file source globals constants).2 =
      (ofSource levels file source globals constants).1.errorCount := by
  have hmap : ∀ errors : List Diagnostic, countErrors (errors.map Notice.error) = errors.length := by
    intro errors
    induction errors with
    | nil => rfl
    | cons e errors ih => rw [List.map_cons, countErrors_error, ih, List.length_cons]
  unfold ofSource
  dsimp only
  split
  · unfold resolve
    dsimp only
    split <;> rfl
  · rw [countErrors_append, hmap, countErrors_log, countErrors_nil, Nat.add_zero]

/-- The reporter remembers them all. -/
theorem World.reporter_compile (w : World) (levels : Nat) {home : Ref .interpreter}
    (file source : String) (h : home.index < w.interpreters.size) :
    let r := (w.interpreters.get home).reporter
    let u := (w.compile levels home file source).1
    ((w.compile levels home file source).2.interpreters.get home).reporter =
      { r with
        hadError := r.hadError || !u.ok
        errorCount := r.errorCount + u.errorCount } := by
  have hall : ∀ (notices : List Notice) (w : World), home.index < w.interpreters.size →
      let r := (w.interpreters.get home).reporter
      ((notices.foldl (fun w notice => w.publish home notice) w).interpreters.get home).reporter =
        { r with
          hadError := r.hadError || !(countErrors notices == 0)
          errorCount := r.errorCount + countErrors notices } := by
    intro notices
    induction notices with
    | nil => simp
    | cons notice notices ih =>
        intro w hw
        have hsize : home.index < (w.publish home notice).interpreters.size := by
          rw [(SameBut.publish home w notice).size]
          exact hw
        have hrest := ih _ hsize
        cases notice with
        | log l =>
            rw [countErrors_log]
            exact hrest
        | error e =>
            have hnoted : ((w.publish home (.error e)).interpreters.get home).reporter =
                (w.interpreters.get home).reporter.noteStatic :=
              congrArg Interpreter.reporter (Arena.get_set_self _ _ hw)
            rw [List.foldl_cons, hrest, hnoted, countErrors_error]
            simp [Reporter.noteStatic, Nat.add_assoc, Nat.add_comm 1]
  intro r u
  have hnotices := hall (CompiledUnit.ofSource levels file source
    (w.scopes.get (w.interpreters.get home).globals).values.names
    (w.interpreters.get home).constants).2 w h
  rw [CompiledUnit.countErrors_ofSource] at hnotices
  exact hnotices

/-! ### Rejection and acceptance -/

namespace World
variable {w : World} {home : Ref .interpreter} {file source : String}

/-- A rejected unit is only reported. -/
theorem run_rejected (h : (w.compile nestingLimit home file source).1.ok = false) :
    w.run home file source =
      let r := w.compile nestingLimit home file source
      (.ended r.1 .rejected, r.2.log (.notExecuted r.1.file r.1.errorCount)) := by
  unfold run
  dsimp only
  rw [execute_eq]
  unfold Eval.execute
  rw [h]
  rfl

/-- The statements of an accepted unit are run, whatever was reported before. -/
theorem run_accepted (h : (w.compile nestingLimit home file source).1.ok = true) :
    w.run home file source =
      let r := w.compile nestingLimit home file source
      Outcome.ofResult r.1 (Eval.runStatements (Eval.statement grantedRounds (nestingLimit / 2)) home
        r.1.statements (r.2.updateInterpreter home fun i =>
          { i with constants := r.1.constants, file := some r.1.file })) := by
  unfold run
  dsimp only
  rw [execute_eq]
  unfold Eval.execute
  rw [h]
  rfl

theorem run_accepted_ne (h : (w.compile nestingLimit home file source).1.ok = true)
    (v : CompiledUnit) : (w.run home file source).1 ≠ .ended v .rejected := by
  rw [run_accepted h]
  dsimp only
  unfold Eval.runStatements
  intro hended
  split at hended
  · cases hended
  · cases hended
  · rename_i i t hr hi
    cases i <;> cases hended

/-- A rejected unit changes nothing else. -/
theorem SameBut.run (h : (w.compile nestingLimit home file source).1.ok = false) :
    w.SameBut home (w.run home file source).2 := by
  rw [run_rejected h]
  exact (SameBut.compile w nestingLimit home file source).trans (.log home _ _)

end World

/-- Nothing that happens when a unit is rejected is noted. -/
theorem SessionStep.watch_rejected {s : Watched World Event} {home : Ref .interpreter}
    {file source : String} (h : (s.state.compile nestingLimit home file source).1.ok = false) :
    ((SessionStep.run home file source).watch s).2.notes = s.notes := by
  unfold SessionStep.watch
  by_cases hhome : home.index < s.state.interpreters.size
  · simp only [hhome, if_true]
    unfold Watching.executeText Watching.execute
    rw [World.compile_fst] at h
    rw [h]
    rfl
  · simp only [hhome, if_false]

/-- A unit with static errors runs nothing and writes no output; whatever follows in the session is
the same as without it, with the same outcomes and the same error texts, but for the flag and the
count of static errors in the reporter of its interpreter. A unit without static errors is executed,
whatever the reporter remembers. -/
theorem rejected_leaves_no_trace (before : List SessionStep) (home : Ref .interpreter)
    (file source : String) :
    let w := Session.play before
    let r := w.compile nestingLimit home file source
    let step := SessionStep.run home file source
    (r.1.ok = false →
      (Session.watch (before ++ [step])).notes = (Session.watch before).notes ∧
      w.SameBut home (step.play w).2 ∧
      (home.index < w.interpreters.size →
        (step.play w).1 = some (.ended r.1 .rejected) ∧
        ((step.play w).2.interpreters.get home).reporter =
          { (w.interpreters.get home).reporter with
            hadError := true
            errorCount := (w.interpreters.get home).reporter.errorCount + r.1.errorCount }) ∧
      ∀ mid,
        let v := Session.play (before ++ mid)
        let v' := Session.play (before ++ step :: mid)
        v.SameBut home v' ∧ ∀ next : SessionStep,
          (next.play v').1 = (next.play v).1 ∧
          (¬next.Arranges → ∃ text, (next.play v).2.console.err = v.console.err ++ text ∧
            (next.play v').2.console.err = v'.console.err ++ text)) ∧
    (r.1.ok = true → home.index < w.interpreters.size →
      step.play w =
        (let ended := Outcome.ofResult r.1 (Eval.runStatements
          (Eval.statement grantedRounds (nestingLimit / 2)) home r.1.statements
          (r.2.updateInterpreter home fun i =>
            { i with constants := r.1.constants, file := some r.1.file }))
        (some ended.1, ended.2)) ∧
      ∀ u, (step.play w).1 ≠ some (.ended u .rejected)) := by
  intro w r step
  have hplay : home.index < w.interpreters.size →
      step.play w = (some (w.run home file source).1, (w.run home file source).2) := by
    intro hhome
    change (if home.index < w.interpreters.size then _ else _) = _
    rw [if_pos hhome]
  have hidle : ¬home.index < w.interpreters.size → step.play w = (none, w) := by
    intro hhome
    change (if home.index < w.interpreters.size then _ else _) = _
    rw [if_neg hhome]
  constructor
  · intro hok
    have hsame : w.SameBut home (step.play w).2 := by
      by_cases hhome : home.index < w.interpreters.size
      · rw [hplay hhome]
        exact .run hok
      · rw [hidle hhome]
        exact .refl home w
    refine ⟨?_, hsame, fun hhome => ?_, fun mid => ?_⟩
    · unfold Session.watch
      rw [List.foldl_append]
      refine SessionStep.watch_rejected ?_
      change ((Session.watch before).state.compile nestingLimit home file source).1.ok = false
      rw [Session.watch_state]
      exact hok
    · rw [hplay hhome, World.run_rejected hok]
      refine ⟨rfl, (World.reporter_compile w nestingLimit file source hhome).trans ?_⟩
      rw [show (w.compile nestingLimit home file source).1.ok = false from hok]
      simp only [Bool.not_false, Bool.or_true]
      rfl
    · -- From here on the two worlds differ in a reporter only, and every step keeps it so.
      have hlater : (Session.play (before ++ mid)).SameBut home
          (Session.play (before ++ step :: mid)) := by
        unfold Session.play
        rw [List.foldl_append, List.foldl_append, List.foldl_cons]
        exact hsame.foldl mid
      exact ⟨hlater, fun next => ⟨(hlater.play next).1, (hlater.play next).2.2⟩⟩
  · intro hok hhome
    rw [hplay hhome]
    refine ⟨?_, fun u hu => World.run_accepted_ne hok u (Option.some.inj hu)⟩
    rw [World.run_accepted hok]

/-- A `break` outside of loops is rejected, which the next unit does not notice. -/
theorem rejected_leaves_no_trace_break :
    let before := [.addLoader [], .addInterpreter "__main__" ⟨0⟩]
    let rejected := SessionStep.run ⟨0⟩ "<lox>" "break;"
    let accepted := SessionStep.run ⟨0⟩ "<lox>" "print nil;"
    (∃ u, (rejected.play (Session.play before)).1 = some (.ended u .rejected)) ∧
    (accepted.play (Session.play (before ++ [rejected]))).1 =
      (accepted.play (Session.play before)).1 ∧
    ∀ u, (accepted.play (Session.play before)).1 ≠ some (.ended u .rejected) := by
  intro before rejected accepted
  have hhome : (0 : Nat) < (Session.play before).interpreters.size := by decide +kernel
  obtain ⟨hrejected, -⟩ := rejected_leaves_no_trace before ⟨0⟩ "<lox>" "break;"
  obtain ⟨-, haccepted⟩ := rejected_leaves_no_trace before ⟨0⟩ "<lox>" "print nil;"
  obtain ⟨-, -, hended, hlater⟩ := hrejected (by decide +kernel)
  obtain ⟨-, hne⟩ := haccepted (by decide +kernel) hhome
  have hnext := ((hlater []).2 accepted).1
  rw [List.append_nil] at hnext
  exact ⟨⟨_, (hended hhome).1⟩, hnext, hne⟩

end Treewalk
