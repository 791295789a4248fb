import Treewalk.Program
import Treewalk.Proofs.Control.Sessions
import Treewalk.Proofs.Loading.Course

/-!
# The prompt

The lines of the input are run one after the other in one interpreter. A line that is rejected or
fails is handled like any other; only a crash keeps the prompt from reading on. The worlds in
between are those of a session.
-/
namespace Treewalk

namespace World
variable {w : World} {home : Ref .interpreter}

/-- A world at the end of a session. -/
def Arises (w : World) : Prop := ∃ steps, Session.play steps = w

namespace Arises

theorem play (h : w.Arises) (step : SessionStep) : (step.play w).2.Arises := by
  obtain ⟨steps, rfl⟩ := h
  exact ⟨steps ++ [step], List.foldl_append⟩

theorem write (h : w.Arises) (text : String) : (Program.write w text).Arises :=
  h.play (.arrange w.files w.workingDirectory (Program.write w text).console w.now)

/-- No unit ends with a signal, or for want of a scope. -/
theorem outcome (h : w.Arises) (step : SessionStep) :
    (∀ c, (step.play w).1 ≠ some (.stray c)) ∧
      ∀ hops, (step.play w).1 ≠ some (.crashed (.shortChain hops)) := by
  obtain ⟨steps, rfl⟩ := h
  constructor
  · rw [← Session.handle_state, ← step.handle_erases]
    exact (step.handle_fair (Session.handle_fair steps)).2
  · rw [← Session.watch_state, ← step.watch_erases]
    have hgood : Good False 0 (Session.watch steps) := Session.watch_good False.elim
    exact (step.watch_safe hgood False.elim).2

end Arises

/-- What a unit prints is added to the output, and no interpreter goes away. -/
theorem grows_execute (w : World) (home : Ref .interpreter) (u : CompiledUnit) :
    w.interpreters.size ≤ (w.execute home u).2.interpreters.size ∧
      ∃ more, (w.execute home u).2.console.out = w.console.out ++ more := by
  obtain ⟨v, t, v', hbefore, ht, hafter, hend⟩ := Loading.executeUnit_around home u ⟨w, []⟩
  rw [← congrArg Prod.snd (Loading.executeUnit_erases home u ⟨w, []⟩), hend, hafter.size,
    hafter.out, ← hbefore.size, ← hbefore.out]
  exact ⟨ht.interpreters.size, ht.out⟩

end World

/-- What is said of a line: its unit came to an end of some kind, or made more rounds than any run
does. -/
def Outcome.Over (u : CompiledUnit) (o : Outcome) : Prop :=
  (∃ completion, o = .ended u completion) ∨ o = .exhausted

/-- The unit of a line was accepted, and crashed, but not for want of a scope. -/
structure Outcome.Breaks (u : CompiledUnit) (c : Crash) (o : Outcome) : Prop where
  crashed : o = .crashed c
  accepted : u.ok = true
  inScope : ∀ hops, c ≠ .shortChain hops

theorem Outcome.ofResult_over {σ : Type} (u : CompiledUnit)
    (r : EStateM.Result Interrupt σ Eval.Completion)
    (hsignal : ∀ c, (ofResult u r).1 ≠ .stray c) :
    (ofResult u r).1.Over u ∨ ∃ c, (ofResult u r).1 = .crashed c := by
  cases r with
  | ok completion t => exact .inl (.inl ⟨completion, rfl⟩)
  | error i t =>
      cases i with
      | error e => exact .inl (.inl ⟨.failed e, rfl⟩)
      | crash c => exact .inr ⟨c, rfl⟩
      | overflow => exact .inr ⟨_, rfl⟩
      | signal c => exact (hsignal c rfl).elim
      | exhausted => exact .inl (.inr rfl)

namespace World
variable {w : World} {home : Ref .interpreter} {u : CompiledUnit}

theorem execute_rejected (h : u.ok = false) :
    w.execute home u = (.ended u .rejected, w.log (.notExecuted u.file u.errorCount)) := by
  rw [execute_eq]
  unfold Eval.execute
  rw [h]
  rfl

theorem Arises.execute_ends (h : w.Arises) (text : UnitText)
    (hhome : home.index < w.interpreters.size) :
    ((w.execute home text.unit).1.Over text.unit ∨
        ∃ c, (w.execute home text.unit).1.Breaks text.unit c) ∧
      (w.execute home text.unit).2.Arises := by
  have hplay : (SessionStep.execute home text).play w =
      (some (w.execute home text.unit).1, (w.execute home text.unit).2) := if_pos hhome
  have hknown := h.outcome (.execute home text)
  have hnext := h.play (.execute home text)
  rw [hplay] at hknown hnext
  refine ⟨?_, hnext⟩
  cases hok : text.unit.ok with
  | false => exact .inl (.inl ⟨.rejected, congrArg Prod.fst (execute_rejected hok)⟩)
  | true =>
      have hsignal : ∀ c, (w.execute home text.unit).1 ≠ .stray c := fun c he =>
        hknown.1 c (congrArg some he)
      have hover := Outcome.ofResult_over text.unit (Eval.execute
        (Eval.statement grantedRounds (nestingLimit / 2)) home text.unit w)
      rw [← execute_eq] at hover
      refine (hover hsignal).imp_right fun ⟨c, hc⟩ => ⟨c, hc, hok, ?_⟩
      rintro hops rfl
      exact hknown.2 hops (congrArg some hc)

end World

namespace Program
variable {options : Options} {home : Ref .interpreter} {w w' : World}

/-- Every line is executed to an end or crashes; the world it leaves is one of the same session, with
all output still there. -/
theorem runUnit_ends (options : Options) (file source : String) (h : w.Arises)
    (hhome : home.index < w.interpreters.size) :
    let u := (w.text nestingLimit home file source).unit
    let r := runUnit options w home file source
    (r.1.Over u ∨ ∃ c, r.1.Breaks u c) ∧ r.2.Arises ∧ home.index < r.2.interpreters.size ∧
      ∃ more, r.2.console.out = w.console.out ++ more := by
  let text := w.text nestingLimit home file source
  let compiled := (w.compile nestingLimit home file source).2
  let outlined :=
    if options.outline then write compiled (outlineProgram "  " text.unit.statements ++ "\n")
    else compiled
  have hcompiled : w.SameAround home compiled := .compile w nestingLimit file source
  have houtlined : outlined.Arises ∧ outlined.interpreters.size = w.interpreters.size ∧
      ∃ more, outlined.console.out = w.console.out ++ more := by
    have harises : compiled.Arises := h.play (.compile home file source)
    unfold outlined
    split
    · exact ⟨harises.write _, hcompiled.size, _, congrArg (· ++ _) hcompiled.out⟩
    · exact ⟨harises, hcompiled.size, "", hcompiled.out.trans String.append_empty.symm⟩
  obtain ⟨harises, hsize, more, hmore⟩ := houtlined
  have hstill : home.index < outlined.interpreters.size := hsize ▸ hhome
  obtain ⟨hends, hnext⟩ := harises.execute_ends text hstill
  obtain ⟨hgrows, more', hmore'⟩ := outlined.grows_execute home text.unit
  refine ⟨hends, hnext, Nat.lt_of_lt_of_le hstill hgrows, more ++ more', ?_⟩
  exact (hmore'.trans (congrArg (· ++ more') hmore)).trans (String.append_assoc ..)

/-- The unit of a line that is read after the prompt. -/
def lineUnit (w : World) (home : Ref .interpreter) (line : String) : CompiledUnit :=
  ((write w prompt).text nestingLimit home "<stdin>" line).unit

/-- Lines are handled: after the prompt each of them is prepared and executed, whatever comes of it,
and prints something; then the reporter is cleared for the next. -/
inductive Handles (options : Options) (home : Ref .interpreter) :
    World → List (String × String) → World → Prop
  | nil (w : World) : Handles options home w [] w
  | cons {w v w' : World} {line printed : String} {o : Outcome} {others : List (String × String)} :
      runUnit options (write w prompt) home "<stdin>" line = (o, v) → o.Over (lineUnit w home line) →
      v.console.out = w.console.out ++ prompt ++ printed →
      Handles options home (v.resetReporter home) others w' →
      Handles options home w ((line, printed) :: others) w'

/-- Everything that was printed stands behind its prompt. -/
theorem Handles.out {handled : List (String × String)} (h : Handles options home w handled w') :
    w'.console.out =
      w.console.out ++ String.join (handled.map fun line => prompt ++ line.2) := by
  induction h with
  | nil w => exact String.append_empty.symm
  | cons _ _ hout _ ih =>
      rw [ih, List.map_cons, String.join_cons, ← String.append_assoc, ← String.append_assoc]
      exact congrArg (· ++ _) hout

theorem runLines_over {v : World} {line : String} {o : Outcome} {u : CompiledUnit}
    {lines : List String} (hrun : runUnit options (write w prompt) home "<stdin>" line = (o, v))
    (h : o.Over u) :
    runLines options home (line :: lines) w = runLines options home lines (v.resetReporter home) := by
  rw [runLines, runLine, hrun]
  rcases h with ⟨completion, rfl⟩ | rfl
  · rfl
  · rfl

theorem runLines_breaks {v : World} {line : String} {o : Outcome} {u : CompiledUnit} {c : Crash}
    {lines : List String} (hrun : runUnit options (write w prompt) home "<stdin>" line = (o, v))
    (h : o.Breaks u c) : runLines options home (line :: lines) w = (.crashed c, v) := by
  rw [runLines, runLine, hrun, h.crashed]

/-- The lines are handled up to the first that crashes. -/
theorem runLines_handles (options : Options) (lines : List String) (h : w.Arises)
    (hhome : home.index < w.interpreters.size) :
    ∃ handled rest w', lines = handled.map Prod.fst ++ rest ∧ Handles options home w handled w' ∧
      match rest with
      | [] => runLines options home lines w = (.exit statusOk, write w' prompt)
      | line :: _ => ∃ o c v, runUnit options (write w' prompt) home "<stdin>" line = (o, v) ∧
          o.Breaks (lineUnit w' home line) c ∧ runLines options home lines w = (.crashed c, v) := by
  induction lines generalizing w with
  | nil => exact ⟨[], [], w, rfl, .nil w, rfl⟩
  | cons line lines ih =>
      obtain ⟨hend, harises, hstill, printed, hprinted⟩ :=
        runUnit_ends options "<stdin>" line (h.write prompt) hhome
      generalize hrun : runUnit options (write w prompt) home "<stdin>" line = r at *
      obtain ⟨o, v⟩ := r
      rcases hend with hover | ⟨c, hbreaks⟩
      · obtain ⟨handled, rest, w', hlines, hhandles, hrest⟩ :=
          ih (harises.play (.resetReporter home)) (Nat.lt_of_lt_of_eq hstill (Arena.size_set ..).symm)
        refine ⟨(line, printed) :: handled, rest, w', congrArg _ hlines,
          .cons hrun hover hprinted hhandles, ?_⟩
        rw [runLines_over hrun hover]
        exact hrest
      · exact ⟨[], line :: lines, w, rfl, .nil w, o, c, v, hrun, hbreaks,
          runLines_breaks hrun hbreaks⟩

/-- Without a script the lines of the input are run. -/
theorem run_lines (h : options.script = none) (environment : Option String) (input : String)
    (w : World) : run options environment input w =
      let main := addMain { w with console := { w.console with verbose := options.verbose } }
        (searchPaths options environment)
      runLines options main.1 (Text.lines (Text.withLineFeeds input)) main.2 := by
  unfold run
  rw [h]

end Program

/-- Without a script the program prompts for the lines of the input one after the other and handles
each of them: whatever is wrong with a line or fails in it, the prompt reads on, and at the end of the
input it is written once more and the exit status says that all went well. Only an accepted line that
crashes ends the program before, and it never does so for want of a scope. -/
theorem prompt_reads_on {options : Options} (h : options.script = none)
    (environment : Option String) (input : String) (files : FileTree) (workingDirectory : RealPath)
    (console : Console) (now : Float) :
    let w : World :=
      { files := files, workingDirectory := workingDirectory, console := console, now := now }
    let verbose := { w with console := { console with verbose := options.verbose } }
    let main := Program.addMain verbose (Program.searchPaths options environment)
    ∃ handled rest w', Text.lines (Text.withLineFeeds input) = handled.map Prod.fst ++ rest ∧
      Program.Handles options main.1 main.2 handled w' ∧
      w'.console.out =
        console.out ++ String.join (handled.map fun line => Program.prompt ++ line.2) ∧
      match rest with
      | [] => Program.run options environment input w =
          (.exit Program.statusOk, Program.write w' Program.prompt)
      | line :: _ => ∃ o c v,
          Program.runUnit options (Program.write w' Program.prompt) main.1 "<stdin>" line = (o, v) ∧
          o.Breaks (Program.lineUnit w' main.1 line) c ∧
          Program.run options environment input w = (.crashed c, v) := by
  intro w verbose main
  have harises : main.2.Arises :=
    ⟨[.arrange files workingDirectory { console with verbose := options.verbose } now,
      .addLoader (Program.searchPaths options environment), .addInterpreter "__main__" ⟨0⟩], rfl⟩
  let loaded := verbose.addLoader (Program.searchPaths options environment)
  have hout : main.2.console.out = console.out := loaded.out_addInterpreter "__main__" ⟨0⟩
  have hmain : main.1.index < main.2.interpreters.size := by
    obtain ⟨added, hadd⟩ := loaded.addInterpreter_eq "__main__" ⟨0⟩
    change _ < (loaded.addInterpreter "__main__" ⟨0⟩).interpreters.size
    rw [hadd]
    exact Nat.lt_of_lt_of_eq (Nat.lt_succ_self _) (Arena.size_add ..).symm
  -- Each line leaves a world like those that sessions reach, which is what the next one needs.
  obtain ⟨handled, rest, w', hlines, hhandles, hrest⟩ :=
    Program.runLines_handles options (Text.lines (Text.withLineFeeds input)) harises hmain
  refine ⟨handled, rest, w', hlines, hhandles, hhandles.out.trans (congrArg (· ++ _) hout), ?_⟩
  rw [Program.run_lines h]
  exact hrest

/-- A runtime error, a syntax error and a module that is not there. -/
theorem prompt_reads_on_faults :
    ({} : Options).script = none ∧
    ∃ (handled : List (String × String)) (w' : World),
      handled.map Prod.fst = ["nil();\n", ";\n", "import m;\n"] ∧
      w'.console.out = String.join (handled.map fun line => Program.prompt ++ line.2) ∧
      Program.run {} none "nil();\n;\nimport m;\n" {} =
        (.exit Program.statusOk, Program.write w' Program.prompt) := by
  have hscript : ({} : Options).script = none := rfl
  obtain ⟨handled, rest, w', hlines, -, hout, hrest⟩ :=
    prompt_reads_on hscript none "nil();\n;\nimport m;\n" {} ⟨[]⟩ {} 0
  have hexit : (Program.run {} none "nil();\n;\nimport m;\n" {}).1 = .exit Program.statusOk := by
    decide +kernel
  have hinput : Text.lines (Text.withLineFeeds "nil();\n;\nimport m;\n") =
      ["nil();\n", ";\n", "import m;\n"] := by decide +kernel
  cases rest with
  | nil =>
      rw [List.append_nil] at hlines
      exact ⟨hscript, handled, w', hlines.symm.trans hinput, hout.trans String.empty_append, hrest⟩
  | cons line lines =>
      obtain ⟨o, c, v, -, -, hrun⟩ := hrest
      have hcrashed := hexit.symm.trans (congrArg Prod.fst hrun)
      cases hcrashed

/-- Not every line is survived: a local that is read in its own initializer ends the program. -/
example : (Program.run {} none
    "\x7b var x = (lambda () \x7b return x; \x7d)(); \x7d\nprint nil;\n" {}).1 =
      .crashed (.missingLocal "x") := by
  decide +kernel

end Treewalk
