import Treewalk.Token.Scan
import Treewalk.Tree.Grammar
import Treewalk.Scoping.Resolve

/-!
# Units

A unit is one source text, prepared for running: scanned, read and, if there was no error so far,
resolved. A unit with any static error is never run.
-/
namespace Treewalk

/-- How deep source and calls may nest: a level for every grammar rule being read, two for every
node being resolved or evaluated. -/
def nestingLimit : Nat := 20000

/-- A prepared unit. -/
structure CompiledUnit where
  file : String
  /-- The number of tokens, the end of the input included. -/
  tokenCount : Nat
  statements : List Stmt
  resolutions : List Resolution
  /-- The global constants after the unit. -/
  constants : List String
  errorCount : Nat
deriving Repr, Inhabited

namespace CompiledUnit

/-- Whether the unit may run. -/
def ok (u : CompiledUnit) : Bool := u.errorCount == 0

/-- Resolves the names of statements that were read without error. -/
def resolve (levels : Nat) (file : String) (scanned : Scanned) (statements : List Stmt)
    (globals constants : List String) : CompiledUnit × List Notice :=
  let start : Scoping := { globals := globals, globalConstants := constants }
  let count := scanned.tokens.length + 1
  match statements.mapM (Resolve.statement (levels / 2)) start with
  | .ok resolved s =>
      let notices := s.notices.toList
      (⟨file, count, resolved, s.resolutions.toList, s.globalConstants, countErrors notices⟩,
        notices)
  | .error _ s =>
      let notices := s.notices.toList ++ [.error ⟨.line scanned.endLine, .tooMuchNesting⟩]
      (⟨file, count, statements, [], s.globalConstants, countErrors notices⟩, notices)

/-- Prepares a source text, given the globals and the global constants so far. The notices are in
the order in which they arise. -/
def ofSource (levels : Nat) (file source : String) (globals constants : List String) :
    CompiledUnit × List Notice :=
  let scanned := scan source
  let parsed := parseTokens levels scanned.tokens scanned.endLine
  let errors := scanned.faults ++ parsed.reports
  if errors.isEmpty then resolve levels file scanned parsed.statements globals constants
  else
    (⟨file, scanned.tokens.length + 1, parsed.statements, [], constants, errors.length⟩,
      errors.map Notice.error ++ [.log (.syntaxErrors file)])

end CompiledUnit
end Treewalk
