import Treewalk.Session
import Treewalk.CommandLine
import Treewalk.Tree.Outline

/-!
# The program

What a command line does: it runs a script, or the lines of the input one by one after a prompt.
The exit status of a script says whether it was rejected, failed or completed; the prompt survives
all errors.
-/
namespace Treewalk

/-- How the program ends. -/
inductive ProgramEnd
  | exit (status : Nat)
  | crashed (c : Crash)
deriving DecidableEq, Repr

namespace Program

/-- Exit status: all went well. -/
def statusOk : Nat := 0

/-- Exit status: the command line is wrong. -/
def statusUsage : Nat := 64

/-- Exit status: the script has static errors. -/
def statusData : Nat := 65

/-- Exit status: a runtime error ended the script. -/
def statusSoftware : Nat := 70

/-- Exit status: the script cannot be read. -/
def statusInput : Nat := 71

/-- What is written before a line is read. -/
def prompt : String := "> "

/-- Adds to the output. -/
def write (w : World) (text : String) : World :=
  { w with console := { w.console with out := w.console.out ++ text } }

/-- The search paths of the command line, then those of the environment, which stand between
colons. -/
def searchPaths (options : Options) (environment : Option String) : List WrittenPath :=
  let more := (Text.pieces ':' (environment.getD "")).filter (· ≠ "")
  (options.searchPaths ++ more).map WrittenPath.ofText

/-- Prepares a unit, prints its outline if wanted, and executes it. -/
def runUnit (options : Options) (w : World) (home : Ref .interpreter) (file source : String) :
    Outcome × World :=
  let (u, w) := w.compile nestingLimit home file source
  let w := if options.outline then write w (outlineProgram "  " u.statements ++ "\n") else w
  w.execute home u

/-- The exit status of a script. -/
def scriptStatus (r : Reporter) : Nat :=
  if r.hadError then statusData
  else if r.hadRuntimeError then statusSoftware
  else statusOk

/-- Makes the program's interpreter. -/
def addMain (w : World) (paths : List WrittenPath) : Ref .interpreter × World :=
  let loader := w.loaders.next
  (w.interpreters.next, (w.addLoader paths).addInterpreter "__main__" loader)

/-- Runs a script. -/
def runScript (options : Options) (paths : List WrittenPath) (script : String) (w : World) :
    ProgramEnd × World :=
  let path := WrittenPath.ofText script
  let unreadable : ProgramEnd × World :=
    (.exit statusInput,
      { w with console := w.console.warn ("Error reading file: " ++ path.text ++ "\n") })
  match w.files.find (path.start w.workingDirectory) path.names with
  | .entry _ (.file bytes) =>
      match Text.decode? bytes with
      | none => (.crashed .undecodableFile, w)
      | some source =>
          let (home, w) := addMain w paths
          match runUnit options w home path.text source with
          | (.crashed c, w) => (.crashed c, w)
          | (_, w) => (.exit (scriptStatus (w.interpreters.get home).reporter), w)
  | _ => unreadable

/-- Runs a line of the input. Only a crash ends the prompt. -/
def runLine (options : Options) (home : Ref .interpreter) (line : String) (w : World) :
    Option Crash × World :=
  match runUnit options w home "<stdin>" line with
  | (.crashed c, w) => (some c, w)
  | (_, w) => (none, w.resetReporter home)

/-- Prompts for each line and once more at the end. -/
def runLines (options : Options) (home : Ref .interpreter) : List String → World →
    ProgramEnd × World
  | [], w => (.exit statusOk, write w prompt)
  | line :: lines, w =>
      match runLine options home line (write w prompt) with
      | (some c, w) => (.crashed c, w)
      | (none, w) => runLines options home lines w

/-- Does what the options say. -/
def run (options : Options) (environment : Option String) (input : String) (w : World) :
    ProgramEnd × World :=
  let w := { w with console := { w.console with verbose := options.verbose } }
  let paths := searchPaths options environment
  match options.script with
  | some script => runScript options paths script w
  | none =>
      let (home, w) := addMain w paths
      runLines options home (Text.lines (Text.withLineFeeds input)) w

/-- Does what a command line says. -/
def answer (arguments : List String) (environment : Option String) (input : String) (w : World) :
    ProgramEnd × World :=
  match Request.ofArguments arguments with
  | .help => (.exit statusOk, write w Request.helpText)
  | .misuse e =>
      (.exit statusUsage, { w with console := w.console.warn (Request.misuseText e) })
  | .run options => run options environment input w

end Program
end Treewalk
