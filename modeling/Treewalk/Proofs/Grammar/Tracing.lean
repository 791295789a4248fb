import Treewalk.Tree.Grammar
import Treewalk.Proofs.Watching

/-!
# Reading, watched

The parsers once more, with notes of what happens: which tokens are looked at, where a syntax error
unwinds a declaration and where reading resumes, and how far each round of a loop over declarations
or methods comes. A loop that is given up because its bound is used up notes that too. Each note says
how many tokens have been read so far.
-/
namespace Treewalk

/-- How many tokens have been read. -/
def Cursor.position (c : Cursor) : Nat := c.total - c.rest.length

/-- What happens while tokens are read. -/
inductive ReadingEvent
  /-- A token is looked at, so many behind the current one; `none` is the end. -/
  | looked (ahead : Nat) (found : Option Token)
  /-- The token before the current one is looked at. -/
  | lookedBack
  /-- A syntax error is reported here, and it unwinds the innermost declaration. -/
  | unwound (d : Diagnostic)
  /-- Here reading resumes; the declaration that was unwound is dropped. -/
  | resumed
  /-- A round of a loop over declarations or methods ends here; there it began. -/
  | round (start : Nat)
  /-- A loop has used up its bound. -/
  | exhausted
deriving Repr

/-- An event and the number of tokens read before it. -/
structure ReadingMark where
  position : Nat
  event : ReadingEvent
deriving Repr

/-- Parsers with notes. -/
abbrev Tracing (α : Type) := EStateM ParseStop (Watched Cursor ReadingMark) α

namespace Tracing
open Watched
variable {α : Type}

/-! ### Single tokens -/

def mark (e : ReadingEvent) : Tracing Unit := do
  let c ← look
  note ⟨c.position, e⟩

/-- Looks at the current token. -/
def current : Tracing (Option Token) := do
  let c ← look
  mark (.looked 0 c.rest.head?)
  return c.rest.head?

def tooDeep : Tracing α := throw .tooDeep

def reportAt (place : Place) (error : StaticError) : Tracing Unit :=
  quietly (Parser.reportAt place error)

def reportHere (error : StaticError) : Tracing Unit := do
  let _ ← current
  quietly (Parser.reportHere error)

def fail (what : Expectation) : Tracing α := do
  let _ ← current
  let c ← look
  quietly (Parser.reportHere (.expected what))
  note ⟨c.position, .unwound ⟨c.place, .expected what⟩⟩
  throw .unwind

def check (kind : TokenKind) : Tracing Bool := do
  let _ ← current
  quietly (Parser.check kind)

/-- Takes the current token, whatever it is, unless it is the end. -/
def advance : Tracing Unit := do
  let _ ← current
  quietly Parser.skip
  mark .lookedBack

def takeMap? {β : Type} (f : Token → Option β) : Tracing (Option β) := do
  let _ ← current
  let taken ← quietly (Parser.takeMap? f)
  if taken.isSome then mark .lookedBack
  return taken

def take? (kind : TokenKind) : Tracing (Option Token) :=
  takeMap? fun t => if t.kind = kind then some t else none

def expect (kind : TokenKind) (what : Expectation) : Tracing Token := do
  match ← take? kind with
  | some t => return t
  | none => fail what

/-- Looks at the next token only behind a function keyword. -/
def functionFollows : Tracing Bool := do
  if let some t ← current then
    if t.kind = .fun ∨ t.kind = .define then
      let c ← look
      mark (.looked 1 c.rest[1]?)
  quietly Parser.functionFollows

/-! ### Loops and errors -/

/-- A round of a loop over items. -/
def round (item : Tracing α) : Tracing α := do
  let c ← look
  let a ← item
  mark (.round c.position)
  return a

def untilBrace (item : Tracing (List α)) : Nat → Tracing (List α)
  | 0 => do
      mark .exhausted
      return []
  | fuel + 1 => do
      match ← current with
      | none => return []
      | some t =>
          if t.kind = .rightBrace then return []
          else
            let first ← round item
            let others ← untilBrace item fuel
            return first ++ others

def commaSeparated (item : Tracing α) (surplus : StaticError) : Nat → Nat → Tracing (List α)
  | 0, _ => do
      mark .exhausted
      return []
  | fuel + 1, count => do
      if maxArguments ≤ count then reportHere surplus
      let first ← item
      match ← take? .comma with
      | none => return [first]
      | some _ =>
          let others ← commaSeparated item surplus fuel (count + 1)
          return first :: others

def leftward (operator : Token → Option (α → α → α)) (operand : Tracing α) :
    Nat → α → Tracing α
  | 0, left => do
      mark .exhausted
      return left
  | fuel + 1, left => do
      match ← takeMap? operator with
      | none => return left
      | some join =>
          let right ← operand
          leftward operator operand fuel (join left right)

def perToken (loop : Nat → Tracing α) : Tracing α := do
  let c ← look
  loop (c.total + 1)

/-- Takes tokens up to where a statement can begin; the argument is what is left. -/
def skipStatement : List Token → Tracing Unit
  | [] => advance
  | t :: rest => do
      advance
      match ← current with
      | none => return
      | some next =>
          mark .lookedBack
          if t.kind = .semicolon ∨ next.kind.startsStatement = true then return
          else skipStatement rest

/-- Skips to where reading resumes. -/
def resume : Tracing Unit := do
  let c ← look
  skipStatement c.rest
  mark .resumed

def recovering (p : Tracing α) : Tracing (List α) := fun s =>
  match p s with
  | .ok a s => .ok [a] s
  | .error .unwind s => (resume >>= fun _ => pure []) s
  | .error .tooDeep s => .error .tooDeep s

/-! ### Constructs given the parsers of their parts -/

def functionRest (block : Tracing (List Stmt)) (label : FunctionLabel) (name : Option Token) :
    Tracing FunctionDecl := do
  let _ ← expect .leftParen (.parametersStart label)
  let parameters ←
    if ← check .rightParen then pure []
    else
      perToken fun fuel =>
        commaSeparated (expect .identifier .parameterName) .tooManyParameters fuel 0
  let _ ← expect .rightParen .parametersEnd
  let _ ← expect .leftBrace (.functionBodyStart label)
  let body ← block
  return .mk name parameters body

def namedFunction (block : Tracing (List Stmt)) (label : FunctionLabel) :
    Tracing FunctionDecl := do
  let name ← expect .identifier (.functionName label)
  functionRest block label (some name)

def superclassClause : Tracing (Option NameUse) := do
  let starts (t : Token) : Option Token :=
    if t.kind = .colon ∨ t.kind = .less then some t else none
  match ← takeMap? starts with
  | none => return none
  | some _ => return some { name := ← expect .identifier .superclassName }

def classDeclaration (block : Tracing (List Stmt)) : Tracing Stmt := do
  let name ← expect .identifier .className
  let superclass ← superclassClause
  let _ ← expect .leftBrace .classBodyStart
  let methods ← perToken <| untilBrace do
    let method ← namedFunction block .method
    return [method]
  let _ ← expect .rightBrace .classBodyEnd
  return .class name superclass methods

def variableDeclaration (expression : Tracing Expr) (mutability : Mutability) : Tracing Stmt := do
  let name ← expect .identifier .variableName
  let initial ←
    match ← take? .equal with
    | some _ => some <$> expression
    | none => do
        if mutability = .constant then reportAt (.ofToken name) .uninitializedConstant
        pure none
  let _ ← expect .semicolon .variableEnd
  return .var mutability name initial

def importDeclaration (keyword : Token) : Tracing Stmt := do
  let named (t : Token) : Option Token :=
    if t.kind = .identifier ∨ t.kind = .string then some t else none
  match ← takeMap? named with
  | none => fail .moduleName
  | some name =>
      let as ←
        match ← take? .as with
        | some _ => some <$> expect .identifier .aliasName
        | none => pure none
      let _ ← expect .semicolon .importEnd
      return .importModule keyword name as

def expressionStatement (expression : Tracing Expr) : Tracing Stmt := do
  let e ← expression
  let _ ← expect .semicolon .expressionEnd
  return .expression e

def forInitial (expression : Tracing Expr) : Tracing (Option Stmt) := do
  match ← take? .semicolon with
  | some _ => return none
  | none =>
      match ← takeMap? Parser.Mutability.ofToken? with
      | some mutability => some <$> variableDeclaration expression mutability
      | none => some <$> expressionStatement expression

def unlessNext (kind : TokenKind) (expression : Tracing Expr) : Tracing (Option Expr) := do
  if ← check kind then return none
  else some <$> expression

def forStatement (expression : Tracing Expr) (statement : Tracing Stmt) : Tracing Stmt := do
  let _ ← expect .leftParen .forStart
  let initial ← forInitial expression
  let condition ← unlessNext .semicolon expression
  let _ ← expect .semicolon .forConditionEnd
  let increment ← unlessNext .rightParen expression
  let _ ← expect .rightParen .forEnd
  let body ← statement
  return Parser.forLoop initial condition increment body

def ifStatement (expression : Tracing Expr) (statement : Tracing Stmt) : Tracing Stmt := do
  let _ ← expect .leftParen .ifStart
  let condition ← expression
  let _ ← expect .rightParen .ifEnd
  let thenBranch ← statement
  let elseBranch ←
    match ← take? .else with
    | some _ => some <$> statement
    | none => pure none
  return .if condition thenBranch elseBranch

def whileStatement (expression : Tracing Expr) (statement : Tracing Stmt) : Tracing Stmt := do
  let _ ← expect .leftParen .whileStart
  let condition ← expression
  let _ ← expect .rightParen .whileEnd
  let body ← statement
  return .while condition body none

def printStatement (expression : Tracing Expr) : Tracing Stmt := do
  let e ← expression
  let _ ← expect .semicolon .printEnd
  return .print e

def returnStatement (expression : Tracing Expr) (keyword : Token) : Tracing Stmt := do
  let value ← unlessNext .semicolon expression
  let _ ← expect .semicolon .returnEnd
  return .return keyword value

def keywordStatement (make : Token → Stmt) (endMark : Expectation) (keyword : Token) :
    Tracing Stmt := do
  let _ ← expect .semicolon endMark
  return make keyword

def callRest (expression : Tracing Expr) : Nat → Expr → Tracing Expr
  | 0, callee => do
      mark .exhausted
      return callee
  | fuel + 1, callee => do
      match ← take? .leftParen with
      | some _ =>
          let arguments ←
            if ← check .rightParen then pure []
            else perToken fun fuel => commaSeparated expression .tooManyArguments fuel 0
          let paren ← expect .rightParen .argumentsEnd
          callRest expression fuel (.call callee paren arguments)
      | none =>
          match ← take? .dot with
          | some _ =>
              let name ← expect .identifier .propertyName
              callRest expression fuel (.get callee name)
          | none => return callee

def primary (expression : Tracing Expr) (block : Tracing (List Stmt)) : Tracing Expr := do
  if let some value ← takeMap? Literal.ofToken? then
    return .literal value
  if let some keyword ← take? .super then
    let _ ← expect .dot .superDot
    let method ← expect .identifier .superMethod
    return .super { name := keyword } method
  if let some keyword ← take? .this then
    return .this { name := keyword }
  if let some name ← take? .identifier then
    return .name { name := name }
  let startsLambda (t : Token) : Option Token :=
    if t.kind = .lambda ∨ t.kind = .fun ∨ t.kind = .define then some t else none
  if let some _ ← takeMap? startsLambda then
    return .lambda (← functionRest block .lambda none)
  if let some _ ← take? .leftParen then
    let inner ← expression
    let _ ← expect .rightParen .groupingEnd
    return .grouping inner
  fail .expression

def assignTo (target : Expr) (equals : Token) (value : Expr) : Tracing Expr :=
  match target with
  | .name use => return .assign use value
  | .get object name => return .set object name value
  | _ => do
      reportAt (.ofToken equals) .invalidAssignmentTarget
      return target

def declarationForms (expression : Tracing Expr) (block : Tracing (List Stmt))
    (statement : Tracing Stmt) : Tracing Stmt := do
  if let some _ ← take? .class then
    return ← classDeclaration block
  if ← functionFollows then
    advance
    return .function (← namedFunction block .function)
  if let some mutability ← takeMap? Parser.Mutability.ofToken? then
    return ← variableDeclaration expression mutability
  if let some keyword ← take? .import then
    return ← importDeclaration keyword
  statement

def statementForms (expression : Tracing Expr) (block : Tracing (List Stmt))
    (statement : Tracing Stmt) : Tracing Stmt := do
  if let some _ ← take? .for then
    return ← forStatement expression statement
  if let some _ ← take? .if then
    return ← ifStatement expression statement
  if let some _ ← take? .print then
    return ← printStatement expression
  if let some keyword ← take? .return then
    return ← returnStatement expression keyword
  if let some _ ← take? .while then
    return ← whileStatement expression statement
  if let some keyword ← take? .break then
    return ← keywordStatement .break .breakEnd keyword
  if let some keyword ← take? .continue then
    return ← keywordStatement .continue .continueEnd keyword
  if let some _ ← take? .leftBrace then
    return .block (← block)
  expressionStatement expression

/-! ### Constructs that nest -/

mutual

def declaration : Nat → Tracing (List Stmt)
  | 0 => tooDeep
  | levels + 1 =>
      recovering (declarationForms (expression levels) (block levels) (statement levels))

def statement : Nat → Tracing Stmt
  | 0 => tooDeep
  | levels + 1 => statementForms (expression levels) (block levels) (statement levels)

def block : Nat → Tracing (List Stmt)
  | 0 => tooDeep
  | levels + 1 => do
      let body ← perToken (untilBrace (declaration levels))
      let _ ← expect .rightBrace .blockEnd
      return body

def expression : Nat → Tracing Expr
  | 0 => tooDeep
  | levels + 1 => assignment levels

def assignment : Nat → Tracing Expr
  | 0 => tooDeep
  | levels + 1 => do
      let target ← chain levels .or
      match ← take? .equal with
      | none => return target
      | some equals =>
          let value ← assignment levels
          assignTo target equals value

def chain : Nat → Tier → Tracing Expr
  | 0, _ => tooDeep
  | levels + 1, tier => do
      let operand :=
        match tier.tighter? with
        | some next => chain levels next
        | none => unary levels
      let first ← operand
      perToken fun fuel => leftward tier.join? operand fuel first

def unary : Nat → Tracing Expr
  | 0 => tooDeep
  | levels + 1 => do
      match ← takeMap? UnaryOp.ofToken? with
      | some (op, token) => return .unary op token (← unary levels)
      | none => call levels

def call : Nat → Tracing Expr
  | 0 => tooDeep
  | levels + 1 => do
      let first ← primary (expression levels) (block levels)
      perToken fun fuel => callRest (expression levels) fuel first

end

def program (item : Tracing (List Stmt)) : Nat → Tracing (List Stmt)
  | 0 => do
      mark .exhausted
      return []
  | fuel + 1 => do
      match ← current with
      | none => return []
      | some _ =>
          let first ← round item
          let others ← program item fuel
          return first ++ others

end Tracing

/-- Reads a token list with notes. -/
def traceTokens (levels : Nat) (tokens : List Token) (endLine : Nat) :
    EStateM.Result ParseStop (Watched Cursor ReadingMark) (List Stmt) :=
  Tracing.perToken (Tracing.program (Tracing.declaration levels))
    { state := { rest := tokens, endLine := endLine } }

end Treewalk
