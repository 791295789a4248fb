import Treewalk.Proofs.Control.Prompt

/-!
# The exit status

The status with which a script ends is read off the reporter of its interpreter. That notes what is
wrong with the script's unit when it is prepared, and the runtime error that ends it; whatever else is
evaluated, the modules that are imported included, leaves it alone. An error in a module is an error of
the script, as it comes out of every import around it.
-/
namespace Treewalk

namespace World
variable {w : World} {home : Ref .interpreter} {u : CompiledUnit}

/-- What the statements of a unit do in the globals of an interpreter. -/
def statements (w : World) (home : Ref .interpreter) (u : CompiledUnit) :
    EStateM.Result Interrupt World Unit :=
  let v := w.prepare home u
  u.statements.forM (Eval.statement grantedRounds (nestingLimit / 2) ⟨home, v.globals home⟩) v

/-- No interpreter that was there is changed by statements. -/
theorem statements_extend (w : World) (home : Ref .interpreter) (u : CompiledUnit) :
    match w.statements home u with
    | .ok _ v | .error _ v => (w.prepare home u).interpreters.Extends v.interpreters := by
  let start : Watched World LoadEvent := ⟨w.prepare home u, []⟩
  let site : Site := ⟨home, (w.prepare home u).globals home⟩
  let run := Loading.statement grantedRounds (nestingLimit / 2) [] site
  have herases : Watched.forget (u.statements.forM run start) = w.statements home u :=
    Watched.Erases.forM ((Loading.erases grantedRounds (nestingLimit / 2)).statement [] site)
      u.statements start
  have hfollows : Follows start (Watched.final (u.statements.forM run start)) :=
    Loading.Onward.forM ((Loading.levelOnward grantedRounds (nestingLimit / 2)).statement [] site)
      u.statements start
  rw [← herases]
  cases hr : u.statements.forM run start with
  | ok a t =>
      rw [hr] at hfollows
      exact hfollows.interpreters
  | error i t =>
      rw [hr] at hfollows
      exact hfollows.interpreters

theorem execute_accepted (w : World) (home : Ref .interpreter) (hok : u.ok = true) :
    w.execute home u =
    match w.statements home u with
    | .ok _ v => (.ended u .completed, v)
    | .error (.error e) v => (.ended u (.failed e), v.reportRuntime home e)
    | .error (.crash c) v => (.crashed c, v)
    | .error .overflow v => (.crashed .nestingOutsideCalls, v)
    | .error (.signal c) v => (.stray c, v)
    | .error .exhausted v => (.exhausted, v) := by
  rw [execute_eq]
  unfold Eval.execute
  rw [if_pos hok]
  change Outcome.ofResult u (Eval.runStatements (Eval.statement grantedRounds (nestingLimit / 2)) home
    u.statements (w.prepare home u)) = _
  unfold Eval.runStatements statements
  dsimp only
  cases u.statements.forM (Eval.statement grantedRounds (nestingLimit / 2)
      ⟨home, (w.prepare home u).globals home⟩) (w.prepare home u) with
  | ok a v => rfl
  | error i v => cases i <;> rfl

/-- An accepted unit leaves the reporter of its interpreter as it was, unless a runtime error ends it:
that is noted. -/
theorem reporter_execute (hok : u.ok = true) (hhome : home.index < w.interpreters.size) :
    ((w.execute home u).2.interpreters.get home).reporter =
      match w.statements home u with
      | .error (.error _) _ => (w.interpreters.get home).reporter.noteRuntime
      | _ => (w.interpreters.get home).reporter := by
  have hprepared : ((w.prepare home u).interpreters.get home).reporter =
      (w.interpreters.get home).reporter := by rw [get_prepare w u hhome]
  have hstart : home.index < (w.prepare home u).interpreters.size :=
    Nat.lt_of_lt_of_eq hhome (Arena.size_set ..).symm
  have hextend := w.statements_extend home u
  rw [w.execute_accepted home hok]
  cases hr : w.statements home u with
  | ok a v =>
      rw [hr] at hextend
      exact (congrArg Interpreter.reporter (hextend.get home hstart)).trans hprepared
  | error i v =>
      rw [hr] at hextend
      have hsame := (congrArg Interpreter.reporter (hextend.get home hstart)).trans hprepared
      cases i with
      | error e =>
          have hstill : home.index < v.interpreters.size := Nat.lt_of_lt_of_le hstart hextend.size
          change ((v.interpreters.set home _).get home).reporter = _
          rw [Arena.get_set_self _ _ hstill]
          exact congrArg Reporter.noteRuntime hsame
      | _ => exact hsame

end World

namespace Loading
variable {s : Watched World LoadEvent} {home : Ref .interpreter} {u : CompiledUnit} {l : Load}

/-- No load fails in the run of a unit that completes. -/
theorem executeUnit_unharmed (h : InLoads False [] s)
    (hcompleted : (executeUnit home u s).1 = .ended u .completed)
    (hl : l.Failed (executeUnit home u s).2.notes) : l.Failed s.notes := by
  have hunharmed : Unharmed (executeUnit home u s).2.notes := by
    have hfinish := executeUnit_finishes home u h
    unfold executeUnit at hcompleted ⊢
    cases hr : execute (statement grantedRounds (nestingLimit / 2) []) home u
        ⟨s.state, .run :: s.notes⟩ with
    | ok completion t =>
        rw [hr] at hfinish hcompleted
        cases hcompleted
        exact hfinish.2.1
    | error i t =>
        rw [hr] at hcompleted
        cases i <;> cases hcompleted
  obtain ⟨w, t, w', -, ht, -, hend⟩ := executeUnit_around home u s
  obtain ⟨more, hmore, hrun⟩ := ht.more
  rw [hend] at hl hunharmed
  rw [hmore] at hl hunharmed
  obtain ⟨e, he, hfails⟩ := hunharmed.failed hrun hl
  rcases List.mem_cons.mp he with rfl | he
  · cases hfails
  · exact ⟨e, he, hfails⟩

/-- Nothing is done for a unit that is rejected. -/
theorem executeUnit_rejected (home : Ref .interpreter) (hok : u.ok = false)
    (s : Watched World LoadEvent) :
    (executeUnit home u s).2 = ⟨s.state.log (.notExecuted u.file u.errorCount), .run :: s.notes⟩ := by
  unfold executeUnit execute
  rw [hok]
  rfl

/-- If a load fails in the run of a unit that comes to an end, a runtime error ended the statements of
the unit. -/
theorem failed_of_load (h : InLoads False [] s) (hnew : ¬l.Failed s.notes)
    (hends : ∃ completion, (s.state.execute home u).1 = .ended u completion)
    (hl : l.Failed (executeUnit home u s).2.notes) :
    u.ok = true ∧ ∃ e after, s.state.statements home u = .error (.error e) after := by
  cases hok : u.ok with
  | false =>
      rw [executeUnit_rejected home hok s] at hl
      obtain ⟨e, he, hfails⟩ := hl
      rcases List.mem_cons.mp he with rfl | he
      · cases hfails
      · exact (hnew ⟨e, he, hfails⟩).elim
  | true =>
      refine ⟨rfl, ?_⟩
      have hexecute := s.state.execute_accepted home hok
      cases hr : s.state.statements home u with
      | ok a after =>
          rw [hr] at hexecute
          have hcompleted : (executeUnit home u s).1 = .ended u .completed :=
            (congrArg Prod.fst (executeUnit_erases home u s)).trans (congrArg Prod.fst hexecute)
          exact (hnew (executeUnit_unharmed h hcompleted hl)).elim
      | error i after =>
          rw [hr] at hexecute
          obtain ⟨completion, hcompletion⟩ := hends
          rw [hexecute] at hcompletion
          cases i with
          | error e => exact ⟨e, after, rfl⟩
          | _ => cases hcompletion

end Loading

namespace Program
variable {options : Options} {w : World} {home : Ref .interpreter} {u : CompiledUnit}

/-- The outline of a unit, if it is wanted. -/
def outlineText (options : Options) (u : CompiledUnit) : String :=
  if options.outline then outlineProgram "  " u.statements ++ "\n" else ""

/-- The world in which a prepared unit is executed. -/
def outlined (options : Options) (w : World) (u : CompiledUnit) : World :=
  if options.outline then write w (outlineProgram "  " u.statements ++ "\n") else w

theorem out_outlined (options : Options) (w : World) (u : CompiledUnit) :
    (outlined options w u).console.out = w.console.out ++ outlineText options u := by
  unfold outlined outlineText
  split
  · rfl
  · exact String.append_empty.symm

theorem interpreters_outlined (options : Options) (w : World) (u : CompiledUnit) :
    (outlined options w u).interpreters = w.interpreters := by
  unfold outlined
  split <;> rfl

/-- The status says how the execution of a unit ended, given that the reporter knows of nothing but
the unit's errors. -/
theorem status_execute (hhome : home.index < w.interpreters.size)
    (hdata : (w.interpreters.get home).reporter.hadError = !u.ok)
    (hsoftware : (w.interpreters.get home).reporter.hadRuntimeError = false)
    (hends : ∃ completion, (w.execute home u).1 = .ended u completion) :
    let status := scriptStatus ((w.execute home u).2.interpreters.get home).reporter
    (status = statusData ↔ u.ok = false) ∧
    (status = statusSoftware ↔ u.ok = true ∧ ∃ e v, w.statements home u = .error (.error e) v) ∧
    (status = statusOk ↔ u.ok = true ∧ ∃ v, w.statements home u = .ok () v) := by
  intro status
  cases hok : u.ok with
  | false =>
      have hstatus : status = statusData := by
        unfold status scriptStatus
        rw [World.execute_rejected hok]
        exact if_pos (hdata.trans (by rw [hok]; rfl))
      rw [hstatus]
      simp [statusData, statusSoftware, statusOk]
  | true =>
      have hreporter := World.reporter_execute hok hhome
      have hexecute := w.execute_accepted home hok
      rw [hok, Bool.not_true] at hdata
      cases hr : w.statements home u with
      | ok a v =>
          have hstatus : status = statusOk := by
            rw [hr] at hreporter
            unfold status scriptStatus
            rw [hreporter, hdata, hsoftware]
            rfl
          rw [hstatus]
          simp [statusData, statusSoftware, statusOk]
      | error i v =>
          rw [hr] at hexecute hreporter
          cases i with
          | error e =>
              have hstatus : status = statusSoftware := by
                unfold status scriptStatus
                rw [hreporter]
                simp [Reporter.noteRuntime, hdata]
              rw [hstatus]
              simp [statusData, statusSoftware, statusOk]
          | _ =>
              obtain ⟨completion, hcompletion⟩ := hends
              rw [hexecute] at hcompletion
              cases hcompletion

/-- How the program ends after its script was executed. -/
def scriptEnd (home : Ref .interpreter) : Outcome × World → ProgramEnd × World
  | (.crashed c, w) => (.crashed c, w)
  | (_, w) => (.exit (scriptStatus (w.interpreters.get home).reporter), w)

/-- Neither a crash nor a signal lets the program exit. -/
theorem ended_of_exit {r : Outcome × World} {status : Nat} {w' : World}
    (hover : r.1.Over u ∨ ∃ c, r.1.Breaks u c) (hfinite : r.1 ≠ .exhausted)
    (h : scriptEnd home r = (.exit status, w')) : (∃ completion, r.1 = .ended u completion) ∧
      status = scriptStatus (r.2.interpreters.get home).reporter ∧ w' = r.2 := by
  obtain ⟨o, v⟩ := r
  rcases hover with (⟨completion, rfl⟩ | rfl) | ⟨c, hbreaks⟩
  · cases h
    exact ⟨⟨completion, rfl⟩, rfl, rfl⟩
  · exact (hfinite rfl).elim
  · cases hbreaks.crashed
    cases h

/-- A script whose text is read is prepared and executed. -/
theorem run_script {script source : String} {place : RealPath} {bytes : ByteArray}
    (hscript : options.script = some script)
    (hfile : w.files.find ((WrittenPath.ofText script).start w.workingDirectory)
      (WrittenPath.ofText script).names = .entry place (.file bytes))
    (htext : Text.decode? bytes = some source) (environment : Option String) (input : String) :
    run options environment input w =
      let verbose := { w with console := { w.console with verbose := options.verbose } }
      let main := addMain verbose (searchPaths options environment)
      let prepared := main.2.compile nestingLimit main.1 (WrittenPath.ofText script).text source
      scriptEnd main.1 ((outlined options prepared.2 prepared.1).execute main.1 prepared.1) := by
  unfold run runScript
  simp only [hscript, hfile, htext]
  rfl

/-- The interpreter of a script, when the script is prepared, knows of nothing but static errors. -/
theorem reporter_main (w : World) (paths : List WrittenPath) (file source : String) :
    let main := addMain w paths
    let r := main.2.compile nestingLimit main.1 file source
    main.1.index < r.2.interpreters.size ∧
      (r.2.interpreters.get main.1).reporter.hadError = !r.1.ok ∧
      (r.2.interpreters.get main.1).reporter.hadRuntimeError = false ∧
      r.2.console.out = w.console.out := by
  intro main r
  have hfresh : (main.2.interpreters.get main.1).reporter = { unit := "__main__" } :=
    congrArg Interpreter.reporter ((w.addLoader paths).get_addInterpreter "__main__" w.loaders.next)
  have hhome : main.1.index < main.2.interpreters.size :=
    Nat.lt_of_lt_of_eq (Nat.lt_succ_self _)
      ((w.addLoader paths).size_addInterpreter "__main__" w.loaders.next).symm
  have hsame : main.2.SameAround main.1 r.2 := .compile _ _ file source
  have hreporter := main.2.reporter_compile nestingLimit file source hhome
  rw [hfresh] at hreporter
  refine ⟨Nat.lt_of_lt_of_eq hhome hsame.size.symm, ?_, ?_, hsame.out.trans ?_⟩
  · exact (congrArg Reporter.hadError hreporter).trans (Bool.false_or _)
  · exact congrArg Reporter.hadRuntimeError hreporter
  · exact (w.addLoader paths).out_addInterpreter "__main__" _

/-- What comes before the execution of a script could be the steps of a session. -/
theorem load_outlined (options : Options) (w : World) (paths : List WrittenPath)
    (file source : String) (hfresh : ∃ steps, Session.load steps = ⟨w, []⟩)  :
    let main := addMain w paths
    let r := main.2.compile nestingLimit main.1 file source
    ∃ steps, Session.load steps = ⟨outlined options r.2 r.1, []⟩ := by
  intro main r
  obtain ⟨steps, hsteps⟩ := hfresh
  have hplayed (more : List SessionStep) : Session.load (steps ++ more) =
      more.foldl (fun s step => (step.load s).2) ⟨w, []⟩ := by
    rw [← hsteps]
    exact List.foldl_append
  let prepare : List SessionStep :=
    [.addLoader paths, .addInterpreter "__main__" w.loaders.next, .compile main.1 file source]
  unfold outlined
  split
  · let text := write r.2 (outlineProgram "  " r.1.statements ++ "\n")
    exact ⟨steps ++ (prepare ++ [.arrange text.files text.workingDirectory text.console text.now]),
      hplayed _⟩
  · exact ⟨steps ++ prepare, hplayed prepare⟩

end Program

/-- The exit status of a script tells how it went. If the script can be read and the program exits, and
no loop made more rounds than any run does, the status is 65 if the script's unit was rejected, 70 if
it was accepted and a runtime error ended its statements, and 0 if it was accepted and all its
statements completed. After 65 no node of any statement was reached, and nothing but the outline was
printed; and if any load of a module failed, at any depth of imports, be it rejected or ended by a
runtime error, then the status is 70. -/
theorem status_tells {options : Options} {script source : String} {files : FileTree}
    {workingDirectory place : RealPath} {bytes : ByteArray} (hscript : options.script = some script)
    (hfile : files.find ((WrittenPath.ofText script).start workingDirectory)
      (WrittenPath.ofText script).names = .entry place (.file bytes))
    (htext : Text.decode? bytes = some source) (environment : Option String) (input : String)
    (console : Console) (now : Float) :
    let w : World :=
      { files := files, workingDirectory := workingDirectory, console := console, now := now }
    let verbose := { w with console := { console with verbose := options.verbose } }
    let main := Program.addMain verbose (Program.searchPaths options environment)
    let prepared := main.2.compile nestingLimit main.1 (WrittenPath.ofText script).text source
    let u := prepared.1
    let start := Program.outlined options prepared.2 u
    let loading := Loading.executeUnit main.1 u ⟨start, []⟩
    (loading.1, loading.2.state) = start.execute main.1 u ∧
    ∀ status w', Program.run options environment input w = (.exit status, w') →
      loading.1 ≠ .exhausted →
      (status = 65 ↔ u.ok = false) ∧
      (status = 70 ↔
        u.ok = true ∧ ∃ e after, start.statements main.1 u = .error (.error e) after) ∧
      (status = 0 ↔ u.ok = true ∧ ∃ after, start.statements main.1 u = .ok () after) ∧
      (status = 65 → loading.2.notes = [.run] ∧
        w'.console.out = console.out ++ Program.outlineText options u) ∧
      ∀ l : Load, l.Failed loading.2.notes → status = 70 := by
  intro w verbose main prepared u start loading
  have herases : (loading.1, loading.2.state) = start.execute main.1 u :=
    Loading.executeUnit_erases main.1 u ⟨start, []⟩
  refine ⟨herases, fun status w' hrun hfinite => ?_⟩
  obtain ⟨hhome, hdata, hsoftware, hout⟩ := Program.reporter_main verbose
    (Program.searchPaths options environment) (WrittenPath.ofText script).text source
  rw [← Program.interpreters_outlined options _ u] at hhome hdata hsoftware
  obtain ⟨steps, hsteps⟩ := Program.load_outlined options verbose
    (Program.searchPaths options environment) (WrittenPath.ofText script).text source
    ⟨[.arrange files workingDirectory { console with verbose := options.verbose } now], rfl⟩
  -- What has been done so far are steps of a session, so all that is known of sessions holds here.
  have harises : start.Arises :=
    ⟨steps, (Session.load_state steps).symm.trans (congrArg Watched.state hsteps)⟩
  have hloads : InLoads False [] ⟨start, []⟩ :=
    hsteps ▸ Session.foldl_inLoads (Session.inLoads_start nofun rfl fun _ => rfl) nofun
  let text := main.2.text nestingLimit main.1 (WrittenPath.ofText script).text source
  have hover : (start.execute main.1 u).1.Over u ∨ ∃ c, (start.execute main.1 u).1.Breaks u c :=
    (harises.execute_ends text hhome).1
  rw [show loading.1 = (start.execute main.1 u).1 from congrArg Prod.fst herases] at hfinite
  obtain ⟨hends, rfl, rfl⟩ := Program.ended_of_exit hover hfinite
    ((Program.run_script (w := w) hscript hfile htext environment input).symm.trans hrun)
  obtain ⟨h65, h70, h0⟩ := Program.status_execute hhome hdata hsoftware hends
  refine ⟨h65, h70, h0, fun hrejected => ?_, fun l hl => h70.mpr ?_⟩
  · have hok := h65.mp hrejected
    refine ⟨congrArg Watched.notes (Loading.executeUnit_rejected main.1 hok ⟨start, []⟩), ?_⟩
    rw [World.execute_rejected hok]
    refine (start.console.out_log _).trans ?_
    exact (Program.out_outlined options prepared.2 u).trans (congrArg (· ++ _) hout)
  · have hnone : ¬l.Failed ([] : List LoadEvent) := by
      rintro ⟨_, he, _⟩
      exact List.not_mem_nil he
    exact Loading.failed_of_load (s := ⟨start, []⟩) (u := u) hloads hnone hends hl

/-- Files in the root directory. -/
def FileTree.ofTexts (texts : List (String × String)) : FileTree :=
  texts.foldl (fun t f => t.write ⟨["", f.1]⟩ (.file f.2.toUTF8)) {}

/-- A script that imports a module that imports a module that is rejected. -/
theorem status_tells_imports :
    let options : Options := { script := some "main.lox" }
    let path := WrittenPath.ofText "main.lox"
    let files := FileTree.ofTexts [("main.lox", "import a;"), ("a.lox", "import b;"), ("b.lox", ";")]
    let w : World := { files := files, workingDirectory := ⟨[""]⟩, console := {}, now := 0 }
    let main := Program.addMain w (Program.searchPaths options none)
    let prepared := main.2.compile nestingLimit main.1 path.text "import a;"
    (options.script = some "main.lox" ∧
      files.find (path.start ⟨[""]⟩) path.names =
        .entry ⟨["", "main.lox"]⟩ (.file "import a;".toUTF8) ∧
      Text.decode? "import a;".toUTF8 = some "import a;") ∧
    (∃ w', Program.run options none "" w = (.exit 70, w')) ∧ prepared.1.ok = true ∧
      ∃ e after, (Program.outlined options prepared.2 prepared.1).statements main.1 prepared.1 =
        .error (.error e) after := by
  intro options path files w main prepared
  have hscript : options.script = some "main.lox" := rfl
  have hfile : files.find (path.start ⟨[""]⟩) path.names =
      .entry ⟨["", "main.lox"]⟩ (.file "import a;".toUTF8) := by rfl
  have htext : Text.decode? "import a;".toUTF8 = some "import a;" := by decide +kernel
  have hexit : (Program.run options none "" w).1 = .exit 70 := by decide +kernel
  have hfailed : (Loading.executeUnit main.1 prepared.1
      ⟨Program.outlined options prepared.2 prepared.1, []⟩).1.error?.isSome = true := by
    decide +kernel
  obtain ⟨-, htells⟩ := status_tells hscript hfile htext none "" {} 0
  generalize hrun : Program.run options none "" w = r at hexit ⊢
  obtain ⟨_, w'⟩ := r
  cases hexit
  obtain ⟨-, hsoftware, -⟩ := htells 70 w' hrun fun hexhausted =>
    Bool.false_ne_true ((congrArg (fun o => o.error?.isSome) hexhausted).symm.trans hfailed)
  exact ⟨⟨hscript, hfile, htext⟩, ⟨w', rfl⟩, hsoftware.mp rfl⟩

end Treewalk
