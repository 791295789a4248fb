import Treewalk.Diagnostic
import Treewalk.Text.Quoted

/-!
# Notices

What is written while a unit is prepared or run, beside its own output: static errors, and log lines
for those who ask for them.
-/
namespace Treewalk

/-- What the log tells. -/
inductive LogLine
  | limitRaised (levels : Nat)
  | syntaxErrors (file : String)
  | notExecuted (file : String) (errors : Nat)
  | globalRead (name : String)
  | moduleCached (name path : String)
  | moduleLoading (name path : String)
deriving DecidableEq, Repr

namespace LogLine

/-- The part of the program that a log line comes from. -/
def source : LogLine → String
  | .limitRaised _ | .notExecuted .. => "loxterp.core"
  | .syntaxErrors _ => "loxterp.code"
  | .globalRead _ => "loxterp.resolver"
  | .moduleCached .. | .moduleLoading .. => "loxterp.lib.module_loader"

/-- The wording of a log line. -/
def message : LogLine → String
  | .limitRaised levels => "raising recursion limit to " ++ toString levels
  | .syntaxErrors file => file ++ ": syntax errors, skipping resolution"
  | .notExecuted file errors =>
      file ++ ": not executed, " ++ toString errors ++ " static error(s)"
  | .globalRead name =>
      "initializer of local " ++ Text.quote name ++ " reads the global binding"
  | .moduleCached name path =>
      "module " ++ Text.quote name ++ " already loaded from " ++ path
  | .moduleLoading name path => "loading module " ++ Text.quote name ++ " from " ++ path

/-- A log line as written. -/
def text (l : LogLine) : String := l.source ++ ": " ++ l.message ++ "\n"

end LogLine

/-- A static error or a log line, in the order in which they arise. -/
inductive Notice
  | error (d : Diagnostic)
  | log (l : LogLine)
deriving DecidableEq, Repr

/-- The number of static errors among notices. -/
def countErrors (notices : List Notice) : Nat :=
  notices.countP fun
    | .error _ => true
    | .log _ => false

@[simp] theorem countErrors_nil : countErrors [] = 0 := rfl

@[simp] theorem countErrors_error (d : Diagnostic) (notices : List Notice) :
    countErrors (.error d :: notices) = countErrors notices + 1 := by simp [countErrors]

@[simp] theorem countErrors_log (l : LogLine) (notices : List Notice) :
    countErrors (.log l :: notices) = countErrors notices := by simp [countErrors]

theorem countErrors_append (first second : List Notice) :
    countErrors (first ++ second) = countErrors first + countErrors second :=
  List.countP_append

end Treewalk
