import Treewalk.Tree.Cursor

/-!
# The grammar

One function per construct. Those that occur inside each other recurse on the number of nesting
levels left; the others take the parsers of their parts as arguments. `parseTokens` reads a whole
token list: all statements that could be read, and every error.
-/
namespace Treewalk

/-- Binary operators by binding strength, loosest first. -/
inductive Tier
  | or | and | equality | comparison | term | factor
deriving DecidableEq, Repr

namespace Tier

/-- The next tighter tier, if it is not the tightest. -/
def tighter? : Tier → Option Tier
  | .or => some .and
  | .and => some .equality
  | .equality => some .comparison
  | .comparison => some .term
  | .term => some .factor
  | .factor => none

/-- The operators of a tier that skip nothing. -/
def binaryOp? : Tier → TokenKind → Option BinaryOp
  | .equality, .bangEqual => some .notEqual
  | .equality, .equalEqual => some .equal
  | .comparison, .greater => some .greater
  | .comparison, .greaterEqual => some .greaterEqual
  | .comparison, .less => some .less
  | .comparison, .lessEqual => some .lessEqual
  | .term, .minus => some .subtract
  | .term, .plus => some .add
  | .factor, .slash => some .divide
  | .factor, .star => some .multiply
  | .factor, .percent => some .remainder
  | _, _ => none

/-- The operators of a tier that may skip their right operand. -/
def logicalOp? : Tier → TokenKind → Option LogicalOp
  | .or, .or => some .or
  | .and, .and => some .and
  | _, _ => none

/-- How an operator token of the tier joins its operands. -/
def join? (tier : Tier) (t : Token) : Option (Expr → Expr → Expr) :=
  match tier.binaryOp? t.kind, tier.logicalOp? t.kind with
  | some op, _ => some fun left right => .binary left op t right
  | none, some op => some fun left right => .logical left op t right
  | none, none => none

end Tier

/-- The operator that a token in front of an operand stands for. -/
def UnaryOp.ofToken? (t : Token) : Option (UnaryOp × Token) :=
  match t.kind with
  | .bang => some (.not, t)
  | .minus => some (.negate, t)
  | _ => none

/-- The literal that a token alone stands for. -/
def Literal.ofToken? (t : Token) : Option Literal :=
  match t.kind with
  | .false => some (.bool false)
  | .true => some (.bool true)
  | .nil => some .nil
  | .number | .string => some (t.literal.getD .nil)
  | _ => none

namespace Parser

/-! ### Constructs given the parsers of their parts -/

/-- The parameters and the body of a function. -/
def functionRest (block : Parser (List Stmt)) (label : FunctionLabel) (name : Option Token) :
    Parser FunctionDecl := do
  let _ ← expect .leftParen (.parametersStart label)
  let parameters ←
    if ← check .rightParen then pure []
    else
      perToken fun fuel =>
        commaSeparated (expect .identifier .parameterName) .tooManyParameters fuel 0
  let _ ← expect .rightParen .parametersEnd
  let _ ← expect .leftBrace (.functionBodyStart label)
  let body ← block
  return .mk name parameters body

/-- A function or method from its name on. -/
def namedFunction (block : Parser (List Stmt)) (label : FunctionLabel) :
    Parser FunctionDecl := do
  let name ← expect .identifier (.functionName label)
  functionRest block label (some name)

/-- The superclass clause of a class, if there is one. -/
def superclassClause : Parser (Option NameUse) := do
  let starts (t : Token) : Option Token :=
    if t.kind = .colon ∨ t.kind = .less then some t else none
  match ← takeMap? starts with
  | none => return none
  | some _ => return some { name := ← expect .identifier .superclassName }

/-- A class after its keyword. -/
def classDeclaration (block : Parser (List Stmt)) : Parser Stmt := do
  let name ← expect .identifier .className
  let superclass ← superclassClause
  let _ ← expect .leftBrace .classBodyStart
  let methods ← perToken <| untilBrace do
    let method ← namedFunction block .method
    return [method]
  let _ ← expect .rightBrace .classBodyEnd
  return .class name superclass methods

/-- A variable or constant after its keyword. -/
def variableDeclaration (expression : Parser Expr) (mutability : Mutability) : Parser Stmt := do
  let name ← expect .identifier .variableName
  let initial ←
    match ← take? .equal with
    | some _ => some <$> expression
    | none => do
        if mutability = .constant then reportAt (.ofToken name) .uninitializedConstant
        pure none
  let _ ← expect .semicolon .variableEnd
  return .var mutability name initial

/-- The keyword of a variable or constant. -/
def Mutability.ofToken? (t : Token) : Option Mutability :=
  match t.kind with
  | .var => some .variable
  | .const => some .constant
  | _ => none

/-- An import after its keyword. -/
def importDeclaration (keyword : Token) : Parser Stmt := do
  let named (t : Token) : Option Token :=
    if t.kind = .identifier ∨ t.kind = .string then some t else none
  match ← takeMap? named with
  | none => fail .moduleName
  | some name =>
      let as ←
        match ← take? .as with
        | some _ => some <$> expect .identifier .aliasName
        | none => pure none
      let _ ← expect .semicolon .importEnd
      return .importModule keyword name as

/-- An expression and a semicolon. -/
def expressionStatement (expression : Parser Expr) : Parser Stmt := do
  let e ← expression
  let _ ← expect .semicolon .expressionEnd
  return .expression e

/-- The first clause of a `for` loop with its semicolon. -/
def forInitial (expression : Parser Expr) : Parser (Option Stmt) := do
  match ← take? .semicolon with
  | some _ => return none
  | none =>
      match ← takeMap? Mutability.ofToken? with
      | some mutability => some <$> variableDeclaration expression mutability
      | none => some <$> expressionStatement expression

/-- An expression unless a token of the given kind follows. -/
def unlessNext (kind : TokenKind) (expression : Parser Expr) : Parser (Option Expr) := do
  if ← check kind then return none
  else some <$> expression

/-- A `for` loop is a `while` loop in a scope of its own that holds the first clause. -/
def forLoop (initial : Option Stmt) (condition increment : Option Expr) (body : Stmt) : Stmt :=
  let loop : Stmt := .while (condition.getD (.literal (.bool true))) body increment
  match initial with
  | some s => .block [s, loop]
  | none => loop

/-- A `for` loop after its keyword. -/
def forStatement (expression : Parser Expr) (statement : Parser Stmt) : Parser Stmt := do
  let _ ← expect .leftParen .forStart
  let initial ← forInitial expression
  let condition ← unlessNext .semicolon expression
  let _ ← expect .semicolon .forConditionEnd
  let increment ← unlessNext .rightParen expression
  let _ ← expect .rightParen .forEnd
  let body ← statement
  return forLoop initial condition increment body

/-- A conditional after its keyword. An `else` belongs to the nearest `if`. -/
def ifStatement (expression : Parser Expr) (statement : Parser Stmt) : Parser Stmt := do
  let _ ← expect .leftParen .ifStart
  let condition ← expression
  let _ ← expect .rightParen .ifEnd
  let thenBranch ← statement
  let elseBranch ←
    match ← take? .else with
    | some _ => some <$> statement
    | none => pure none
  return .if condition thenBranch elseBranch

/-- A `while` loop after its keyword. -/
def whileStatement (expression : Parser Expr) (statement : Parser Stmt) : Parser Stmt := do
  let _ ← expect .leftParen .whileStart
  let condition ← expression
  let _ ← expect .rightParen .whileEnd
  let body ← statement
  return .while condition body none

/-- An output statement after its keyword. -/
def printStatement (expression : Parser Expr) : Parser Stmt := do
  let e ← expression
  let _ ← expect .semicolon .printEnd
  return .print e

/-- A return after its keyword. -/
def returnStatement (expression : Parser Expr) (keyword : Token) : Parser Stmt := do
  let value ← unlessNext .semicolon expression
  let _ ← expect .semicolon .returnEnd
  return .return keyword value

/-- A keyword that is a statement of its own. -/
def keywordStatement (make : Token → Stmt) (endMark : Expectation) (keyword : Token) :
    Parser Stmt := do
  let _ ← expect .semicolon endMark
  return make keyword

/-- What follows an expression that is called or whose property is read. -/
def callRest (expression : Parser Expr) : Nat → Expr → Parser Expr
  | 0, callee => return callee
  | fuel + 1, callee => do
      match ← take? .leftParen with
      | some _ =>
          let arguments ←
            if ← check .rightParen then pure []
            else perToken fun fuel => commaSeparated expression .tooManyArguments fuel 0
          let paren ← expect .rightParen .argumentsEnd
          callRest expression fuel (.call callee paren arguments)
      | none =>
          match ← take? .dot with
          | some _ =>
              let name ← expect .identifier .propertyName
              callRest expression fuel (.get callee name)
          | none => return callee

/-- The part of an expression that no operator splits. -/
def primary (expression : Parser Expr) (block : Parser (List Stmt)) : Parser Expr := do
  if let some value ← takeMap? Literal.ofToken? then
    return .literal value
  if let some keyword ← take? .super then
    let _ ← expect .dot .superDot
    let method ← expect .identifier .superMethod
    return .super { name := keyword } method
  if let some keyword ← take? .this then
    return .this { name := keyword }
  if let some name ← take? .identifier then
    return .name { name := name }
  let startsLambda (t : Token) : Option Token :=
    if t.kind = .lambda ∨ t.kind = .fun ∨ t.kind = .define then some t else none
  if let some _ ← takeMap? startsLambda then
    return .lambda (← functionRest block .lambda none)
  if let some _ ← take? .leftParen then
    let inner ← expression
    let _ ← expect .rightParen .groupingEnd
    return .grouping inner
  fail .expression

/-- Turns a tree into the target of an assignment. Only names and properties can be assigned;
anything else is reported at the equals sign and stands for itself. -/
def assignTo (target : Expr) (equals : Token) (value : Expr) : Parser Expr :=
  match target with
  | .name use => return .assign use value
  | .get object name => return .set object name value
  | _ => do
      reportAt (.ofToken equals) .invalidAssignmentTarget
      return target

/-- Whether a function with a name follows. -/
def functionFollows : Parser Bool := do
  match (← get).rest with
  | t :: next :: _ =>
      return decide ((t.kind = .fun ∨ t.kind = .define) ∧ next.kind = .identifier)
  | _ => return false

/-- Reads the current token, whatever it is. -/
def skip : Parser Unit := modify fun c => { c with rest := c.rest.tail }

/-- A declaration, or else a statement. -/
def declarationForms (expression : Parser Expr) (block : Parser (List Stmt))
    (statement : Parser Stmt) : Parser Stmt := do
  if let some _ ← take? .class then
    return ← classDeclaration block
  if ← functionFollows then
    skip
    return .function (← namedFunction block .function)
  if let some mutability ← takeMap? Mutability.ofToken? then
    return ← variableDeclaration expression mutability
  if let some keyword ← take? .import then
    return ← importDeclaration keyword
  statement

/-- A statement that declares nothing. -/
def statementForms (expression : Parser Expr) (block : Parser (List Stmt))
    (statement : Parser Stmt) : Parser Stmt := do
  if let some _ ← take? .for then
    return ← forStatement expression statement
  if let some _ ← take? .if then
    return ← ifStatement expression statement
  if let some _ ← take? .print then
    return ← printStatement expression
  if let some keyword ← take? .return then
    return ← returnStatement expression keyword
  if let some _ ← take? .while then
    return ← whileStatement expression statement
  if let some keyword ← take? .break then
    return ← keywordStatement .break .breakEnd keyword
  if let some keyword ← take? .continue then
    return ← keywordStatement .continue .continueEnd keyword
  if let some _ ← take? .leftBrace then
    return .block (← block)
  expressionStatement expression

/-! ### Constructs that nest, by levels left -/

mutual

/-- A declaration or statement; a malformed one is dropped. -/
def declaration : Nat → Parser (List Stmt)
  | 0 => tooDeep
  | levels + 1 =>
      recovering (declarationForms (expression levels) (block levels) (statement levels))

/-- A statement. -/
def statement : Nat → Parser Stmt
  | 0 => tooDeep
  | levels + 1 => statementForms (expression levels) (block levels) (statement levels)

/-- The statements of a body with the brace that ends it. -/
def block : Nat → Parser (List Stmt)
  | 0 => tooDeep
  | levels + 1 => do
      let body ← perToken (untilBrace (declaration levels))
      let _ ← expect .rightBrace .blockEnd
      return body

/-- An expression. -/
def expression : Nat → Parser Expr
  | 0 => tooDeep
  | levels + 1 => assignment levels

/-- Assignments group to the right and bind loosest. -/
def assignment : Nat → Parser Expr
  | 0 => tooDeep
  | levels + 1 => do
      let target ← chain levels .or
      match ← take? .equal with
      | none => return target
      | some equals =>
          let value ← assignment levels
          assignTo target equals value

/-- Operands of the next tighter tier with operators of this tier between them. -/
def chain : Nat → Tier → Parser Expr
  | 0, _ => tooDeep
  | levels + 1, tier => do
      let operand :=
        match tier.tighter? with
        | some next => chain levels next
        | none => unary levels
      let first ← operand
      perToken fun fuel => leftward tier.join? operand fuel first

/-- Operators in front of an operand. -/
def unary : Nat → Parser Expr
  | 0 => tooDeep
  | levels + 1 => do
      match ← takeMap? UnaryOp.ofToken? with
      | some (op, token) => return .unary op token (← unary levels)
      | none => call levels

/-- Calls and property reads. -/
def call : Nat → Parser Expr
  | 0 => tooDeep
  | levels + 1 => do
      let first ← primary (expression levels) (block levels)
      perToken fun fuel => callRest (expression levels) fuel first

end

/-- Declarations up to the end; a brace that closes nothing is not the end. -/
def program (item : Parser (List Stmt)) : Nat → Parser (List Stmt)
  | 0 => return []
  | fuel + 1 => do
      match (← get).rest with
      | [] => return []
      | _ :: _ =>
          let first ← item
          let others ← program item fuel
          return first ++ others

end Parser

/-- The statements read from a token list and the syntax errors found in it. -/
structure Parsed where
  statements : List Stmt
  reports : List Diagnostic
deriving Repr, Inhabited

/-- Reads a token list. Nesting beyond the limit is an error at the token reached, and then there
are no statements at all. -/
def parseTokens (levels : Nat) (tokens : List Token) (endLine : Nat) : Parsed :=
  match Parser.perToken (Parser.program (Parser.declaration levels))
      { rest := tokens, endLine := endLine } with
  | .ok statements c => ⟨statements, c.reports.toList⟩
  | .error _ c => ⟨[], (c.report c.place .tooMuchNesting).reports.toList⟩

end Treewalk
