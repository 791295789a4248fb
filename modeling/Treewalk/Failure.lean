import Treewalk.Token
import Treewalk.Text.Quoted

/-!
# Failures of running programs

A runtime error belongs to the language: it has a cause and a token, and is reported. A crash does
not: the run just stops and nothing is reported.
-/
namespace Treewalk

/-- The causes of runtime errors. -/
inductive RuntimeCause
  | undefinedVariable (name : String)
  | operandNotNumber
  | operandsNotNumbers
  | operandsNotAddable
  | divisionByZero
  | notCallable
  | argumentCount (expected found : Nat)
  | stackOverflow
  | noProperties
  | noFields
  | undefinedProperty (name : String)
  | noMember (module name : String)
  | superclassNotClass
  | moduleNotFound (name : String)
  | moduleUnreadable (name reason : String)
  | moduleRejected (name : String)
  | moduleFailed (name : String)
deriving DecidableEq, Repr

namespace RuntimeCause

/-- The wording of a runtime error. -/
def message : RuntimeCause → String
  | .undefinedVariable name => "Undefined variable '" ++ name ++ "'."
  | .operandNotNumber => "Operand must be a number."
  | .operandsNotNumbers => "Operands must be numbers."
  | .operandsNotAddable => "Operands must be two numbers or two strings."
  | .divisionByZero => "Division by zero."
  | .notCallable => "Can only call functions and classes."
  | .argumentCount expected found =>
      "Expected " ++ toString expected ++ " arguments but got " ++ toString found ++ "."
  | .stackOverflow => "Stack overflow."
  | .noProperties => "Only instances have properties."
  | .noFields => "Only instances have fields."
  | .undefinedProperty name => "Undefined property '" ++ name ++ "'."
  | .noMember module name => "Module '" ++ module ++ "' has no member '" ++ name ++ "'."
  | .superclassNotClass => "Superclass must be a class."
  | .moduleNotFound name => "Cannot find module '" ++ name ++ "'."
  | .moduleUnreadable name reason => "Error reading module '" ++ name ++ "': " ++ reason ++ "."
  | .moduleRejected name => "Module '" ++ name ++ "' has errors."
  | .moduleFailed name => "Module '" ++ name ++ "' failed to run."

end RuntimeCause

/-- A runtime error at its token. -/
structure RuntimeError where
  token : Token
  cause : RuntimeCause
deriving Repr

/-- The ways in which a run can stop without a runtime error. -/
inductive Crash
  /-- A local is read before its declaration was executed. -/
  | missingLocal (name : String)
  /-- A remainder of an infinity. -/
  | remainderOfInfinity
  /-- Fewer scopes than a use has hops. -/
  | shortChain (hops : Nat)
  /-- A file that is not UTF-8. -/
  | undecodableFile
  /-- A name that no file can have. -/
  | fileNameTooLong
  /-- Nesting beyond the limit outside all calls. -/
  | nestingOutsideCalls
deriving DecidableEq, Repr

namespace Crash

/-- What a crash says, if it says anything. -/
def message? : Crash → Option String
  | .missingLocal name => some (Text.quote name)
  | .remainderOfInfinity => some "math domain error"
  | .shortChain hops =>
      some ("scope chain is shorter than resolved distance " ++ toString hops)
  | .undecodableFile | .fileNameTooLong | .nestingOutsideCalls => none

end Crash
end Treewalk
