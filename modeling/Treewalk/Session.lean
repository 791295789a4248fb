import Treewalk.Eval.Tree

/-!
# Sessions

Units run one after the other in a world. Whatever a unit does, the world it leaves is the one in
which the next unit runs.
-/
namespace Treewalk

/-- The rounds granted to every loop: more than any run makes. -/
def grantedRounds : Nat := 1 <<< 62

/-- How a step of a session ended. -/
inductive Outcome
  /-- The unit was rejected, completed or failed. -/
  | ended (unit : CompiledUnit) (completion : Eval.Completion)
  | crashed (c : Crash)
  /-- A control signal that nothing took. -/
  | stray (s : Signal)
  /-- A loop made more rounds than granted. -/
  | exhausted
deriving Repr

namespace Outcome

/-- The runtime error that ended the unit. -/
def error? : Outcome → Option RuntimeError
  | .ended _ (.failed e) => some e
  | _ => none

/-- The crash that ended the step. -/
def crash? : Outcome → Option Crash
  | .crashed c => some c
  | _ => none

end Outcome

/-- What a rejected unit says when asked to raise its errors. -/
def CompiledUnit.rejection (u : CompiledUnit) : String :=
  u.file ++ ": " ++ toString u.errorCount ++ " static error(s)"

namespace World

/-- Executes a prepared unit with the given rounds for loops and levels for nesting. -/
def executeWithin (patience levels : Nat) (w : World) (home : Ref .interpreter)
    (u : CompiledUnit) : Outcome × World :=
  match Eval.execute (Eval.statement patience levels) home u w with
  | .ok completion w => (.ended u completion, w)
  | .error (.error e) w => (.ended u (.failed e), w)
  | .error (.crash c) w => (.crashed c, w)
  | .error .overflow w => (.crashed .nestingOutsideCalls, w)
  | .error (.signal s) w => (.stray s, w)
  | .error .exhausted w => (.exhausted, w)

/-- Executes a prepared unit. -/
def execute (w : World) (home : Ref .interpreter) (u : CompiledUnit) : Outcome × World :=
  executeWithin grantedRounds (nestingLimit / 2) w home u

/-- Prepares and executes a source text. -/
def run (w : World) (home : Ref .interpreter) (file source : String) : Outcome × World :=
  let r := w.compile nestingLimit home file source
  r.2.execute home r.1

/-- Clears the flags of an interpreter's reporter. -/
def resetReporter (w : World) (home : Ref .interpreter) : World :=
  w.updateInterpreter home fun i => { i with reporter := i.reporter.reset }

/-- Takes away what was written so far. -/
def takeOutput (w : World) : (String × String) × World :=
  ((w.console.out, w.console.err), { w with console := { w.console with out := "", err := "" } })

end World
end Treewalk
