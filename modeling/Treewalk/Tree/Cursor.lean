import Treewalk.Tree
import Treewalk.Diagnostic

/-!
# Reading tokens

A parser reads tokens off a `Cursor` and reports errors there. It stops early for two reasons only:
a syntax error, after which reading resumes at a later statement, or nesting beyond the limit, which
ends all reading. Nothing here recurses over the grammar.
-/
namespace Treewalk

/-- The tokens still to be read, the line of the end, how many tokens there were at the start, and
the errors so far. -/
structure Cursor where
  rest : List Token
  endLine : Nat
  total : Nat := rest.length
  reports : Array Diagnostic := #[]
deriving Repr

/-- Why a parser stops early. -/
inductive ParseStop
  | unwind
  | tooDeep
deriving DecidableEq, Repr

/-- Parsers keep what they read and report when they stop early. -/
abbrev Parser (α : Type) := EStateM ParseStop Cursor α

namespace Cursor

/-- Where an error at the current token is reported. -/
def place (c : Cursor) : Place :=
  match c.rest with
  | [] => .endOfInput c.endLine
  | t :: _ => .ofToken t

/-- Adds an error. -/
def report (c : Cursor) (place : Place) (error : StaticError) : Cursor :=
  { c with reports := c.reports.push ⟨place, error⟩ }

/-- Drops tokens until one begins a statement or the one before was a semicolon. -/
def skipStatement : List Token → List Token
  | [] => []
  | [_] => []
  | t :: next :: rest =>
      if t.kind = .semicolon ∨ next.kind.startsStatement = true then next :: rest
      else skipStatement (next :: rest)

/-- Resumes after a syntax error; at least one token is dropped. -/
def synchronize (c : Cursor) : Cursor := { c with rest := skipStatement c.rest }

@[simp] theorem rest_report (c : Cursor) (place : Place) (error : StaticError) :
    (c.report place error).rest = c.rest := rfl

theorem skipStatement_length (t : Token) (rest : List Token) :
    (skipStatement (t :: rest)).length ≤ rest.length := by
  induction rest generalizing t with
  | nil => simp [skipStatement]
  | cons next more ih =>
      rw [skipStatement]
      split
      · simp
      · exact Nat.le_trans (ih next) (Nat.le_succ _)

end Cursor

namespace Parser
variable {α : Type}

/-- Gives up for good. -/
def tooDeep : Parser α := throw .tooDeep

/-- Reports an error at a place and goes on. -/
def reportAt (place : Place) (error : StaticError) : Parser Unit :=
  modify fun c => c.report place error

/-- Reports an error at the current token and goes on. -/
def reportHere (error : StaticError) : Parser Unit :=
  modify fun c => c.report c.place error

/-- Reports at the current token what was expected, and unwinds. -/
def fail (what : Expectation) : Parser α := do
  reportHere (.expected what)
  throw .unwind

/-- Whether the current token is of the given kind. -/
def check (kind : TokenKind) : Parser Bool := do
  match (← get).rest with
  | [] => return false
  | t :: _ => return decide (t.kind = kind)

/-- Reads the current token if `f` has a use for it. -/
def takeMap? {β : Type} (f : Token → Option β) : Parser (Option β) := do
  let c ← get
  match c.rest with
  | [] => return none
  | t :: rest =>
      match f t with
      | none => return none
      | some b =>
          set { c with rest := rest }
          return some b

/-- Reads the current token if it is of the given kind. -/
def take? (kind : TokenKind) : Parser (Option Token) :=
  takeMap? fun t => if t.kind = kind then some t else none

/-- Reads a token of the given kind, or fails with what was expected. -/
def expect (kind : TokenKind) (what : Expectation) : Parser Token := do
  match ← take? kind with
  | some t => return t
  | none => fail what

/-- Items up to a closing brace or the end; each item takes at least one token or unwinds. -/
def untilBrace (item : Parser (List α)) : Nat → Parser (List α)
  | 0 => return []
  | fuel + 1 => do
      match (← get).rest with
      | [] => return []
      | t :: _ =>
          if t.kind = .rightBrace then return []
          else
            let first ← item
            let others ← untilBrace item fuel
            return first ++ others

/-- Items between commas, at least one. Every item after the `maxArguments`-th is reported. -/
def commaSeparated (item : Parser α) (surplus : StaticError) : Nat → Nat → Parser (List α)
  | 0, _ => return []
  | fuel + 1, count => do
      if maxArguments ≤ count then reportHere surplus
      let first ← item
      match ← take? .comma with
      | none => return [first]
      | some _ =>
          let others ← commaSeparated item surplus fuel (count + 1)
          return first :: others

/-- Operators and right operands, as many as follow; the tree grows to the left. -/
def leftward (operator : Token → Option (α → α → α)) (operand : Parser α) :
    Nat → α → Parser α
  | 0, left => return left
  | fuel + 1, left => do
      match ← takeMap? operator with
      | none => return left
      | some join =>
          let right ← operand
          leftward operator operand fuel (join left right)

/-- Runs a loop with more fuel than there are tokens. Every round takes a token, so none runs out. -/
def perToken (loop : Nat → Parser α) : Parser α := do
  let c ← get
  loop (c.total + 1)

/-- Runs a parser that may unwind; then no tree results, and reading resumes later. -/
def recovering (p : Parser α) : Parser (List α) := fun c =>
  match p c with
  | .ok a c => .ok [a] c
  | .error .unwind c => .ok [] c.synchronize
  | .error .tooDeep c => .error .tooDeep c

end Parser
end Treewalk
