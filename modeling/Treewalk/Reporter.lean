import Treewalk.Diagnostic

/-!
# Reporters

Every unit has a reporter: it writes the unit's errors, names the unit unless it is the main one,
and remembers whether anything was reported. `reset` clears the flags between prompt lines; the
count of static errors runs on.
-/
namespace Treewalk

/-- The name and the record of one unit. -/
structure Reporter where
  unit : String := "__main__"
  hadError : Bool := false
  hadRuntimeError : Bool := false
  errorCount : Nat := 0
deriving DecidableEq, Repr, Inhabited

namespace Reporter

/-- Whether the unit is the main one. -/
def isMain (r : Reporter) : Bool := r.unit == "__main__"

/-- Forgets that there were errors, but not how many static ones. -/
def reset (r : Reporter) : Reporter := { r with hadError := false, hadRuntimeError := false }

/-- The text of a static error. -/
def staticText (r : Reporter) (place : Place) (message : String) : String :=
  (if r.isMain then "" else "In module '" ++ r.unit ++ "' on ") ++
    "[line " ++ toString place.lineNumber ++ "] Error" ++ place.suffix ++ ": " ++ message ++ "\n"

/-- The text of a runtime error. -/
def runtimeText (r : Reporter) (line : Int) (message : String) : String :=
  message ++ "\n[line " ++ toString line ++ "]" ++
    (if r.isMain then "" else " in module '" ++ r.unit ++ "'") ++ "\n"

/-- Remembers a static error. -/
def noteStatic (r : Reporter) : Reporter :=
  { r with hadError := true, errorCount := r.errorCount + 1 }

/-- Remembers a runtime error. -/
def noteRuntime (r : Reporter) : Reporter := { r with hadRuntimeError := true }

@[simp] theorem errorCount_reset (r : Reporter) : r.reset.errorCount = r.errorCount := rfl

@[simp] theorem errorCount_noteStatic (r : Reporter) :
    r.noteStatic.errorCount = r.errorCount + 1 := rfl

end Reporter
end Treewalk
