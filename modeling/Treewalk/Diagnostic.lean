import Treewalk.Token

/-!
# Static errors

The causes for which a unit is rejected before it runs, with their wording and the place at which
each is reported.
-/
namespace Treewalk

/-- What kind of function is being read. -/
inductive FunctionLabel
  | function | method | lambda
deriving DecidableEq, Repr

namespace FunctionLabel

/-- The word for a kind of function in messages. -/
def word : FunctionLabel → String
  | .function => "function"
  | .method => "method"
  | .lambda => "lambda"

end FunctionLabel

/-- What the grammar demands at a place where something else stands. -/
inductive Expectation
  | className | superclassName | classBodyStart | classBodyEnd
  | functionName (label : FunctionLabel) | parametersStart (label : FunctionLabel)
  | parameterName | parametersEnd | functionBodyStart (label : FunctionLabel)
  | variableName | variableEnd
  | moduleName | aliasName | importEnd
  | forStart | forConditionEnd | forEnd
  | ifStart | ifEnd
  | whileStart | whileEnd
  | printEnd | returnEnd | breakEnd | continueEnd | blockEnd | expressionEnd
  | propertyName | argumentsEnd | superDot | superMethod | groupingEnd | expression
deriving DecidableEq, Repr

namespace Expectation

/-- What is wanted and where. -/
def text : Expectation → String
  | .className => "class name"
  | .superclassName => "superclass name"
  | .classBodyStart => "'\x7b' before class body"
  | .classBodyEnd => "'\x7d' after class body"
  | .functionName label => label.word ++ " name"
  | .parametersStart label => "'(' after " ++ label.word ++ " name"
  | .parameterName => "parameter name"
  | .parametersEnd => "')' after parameters"
  | .functionBodyStart label => "'\x7b' before " ++ label.word ++ " body"
  | .variableName => "variable name"
  | .variableEnd => "';' after variable declaration"
  | .moduleName => "module name after 'import'"
  | .aliasName => "alias name after 'as'"
  | .importEnd => "';' after import"
  | .forStart => "'(' after 'for'"
  | .forConditionEnd => "';' after loop condition"
  | .forEnd => "')' after for clauses"
  | .ifStart => "'(' after 'if'"
  | .ifEnd => "')' after if condition"
  | .whileStart => "'(' after 'while'"
  | .whileEnd => "')' after condition"
  | .printEnd => "';' after value"
  | .returnEnd => "';' after return value"
  | .breakEnd => "';' after 'break'"
  | .continueEnd => "';' after 'continue'"
  | .blockEnd => "'\x7d' after block"
  | .expressionEnd => "';' after expression"
  | .propertyName => "property name after '.'"
  | .argumentsEnd => "')' after arguments"
  | .superDot => "'.' after 'super'"
  | .superMethod => "superclass method name"
  | .groupingEnd => "')' after expression"
  | .expression => "expression"

end Expectation

/-- Why an import name is refused. -/
inductive ImportNameError
  | empty | badCharacter | leadingSeparator | trailingSlash | aliasNeeded
deriving DecidableEq, Repr

namespace ImportNameError

/-- The wording of an import name error. -/
def message : ImportNameError → String
  | .empty => "Import name cannot be empty."
  | .badCharacter => "Import name must be a valid module name."
  | .leadingSeparator => "Import name must not start with a separator."
  | .trailingSlash => "Import name must not end with a slash."
  | .aliasNeeded =>
      "Expected alias: Import name contains one or more of following " ++
        "characters: '\\', '/', '-', '.'."

end ImportNameError

/-- The greatest number of parameters and of arguments. -/
def maxArguments : Nat := 255

/-- The causes of rejection. -/
inductive StaticError
  | unexpectedCharacter (c : Char)
  | invalidEscape (c : Char)
  | unterminatedString
  | expected (what : Expectation)
  | tooManyParameters
  | tooManyArguments
  | uninitializedConstant
  | invalidAssignmentTarget
  | tooMuchNesting
  | importName (error : ImportNameError)
  | selfInheritance
  | returnOutsideFunction
  | returnFromInitializer
  | breakOutsideLoop
  | continueOutsideLoop
  | constantReassigned
  | constantFieldModified
  | superOutsideClass
  | superWithoutSuperclass
  | thisOutsideClass
  | ownInitializer
  | constantRedeclared
  | variableRedeclared
deriving DecidableEq, Repr

namespace StaticError

/-- The wording of a static error. -/
def message : StaticError → String
  | .unexpectedCharacter c => "Unexpected character '" ++ c.toString ++ "'."
  | .invalidEscape c => "Invalid escape sequence: '\\" ++ c.toString ++ "'."
  | .unterminatedString => "Unterminated string."
  | .expected what => "Expect " ++ what.text ++ "."
  | .tooManyParameters => "Can't have more than " ++ toString maxArguments ++ " parameters."
  | .tooManyArguments => "Can't have more than " ++ toString maxArguments ++ " arguments."
  | .uninitializedConstant => "Constant must be initialized."
  | .invalidAssignmentTarget => "Invalid assignment target."
  | .tooMuchNesting => "Too much nesting."
  | .importName error => error.message
  | .selfInheritance => "A class can't inherit from itself."
  | .returnOutsideFunction => "Can't return from top-level code."
  | .returnFromInitializer => "Can't return a value from an initializer."
  | .breakOutsideLoop => "Can't use 'break' outside of a loop."
  | .continueOutsideLoop => "Can't use 'continue' outside of a loop."
  | .constantReassigned => "Cannot reassign a constant."
  | .constantFieldModified => "Cannot modify a field of a constant object."
  | .superOutsideClass => "Can't use 'super' outside of a class."
  | .superWithoutSuperclass => "Can't use 'super' in a class with no superclass."
  | .thisOutsideClass => "Can't use 'this' outside of a class."
  | .ownInitializer => "Can't read local variable in its own initializer."
  | .constantRedeclared => "Already a constant with this name."
  | .variableRedeclared => "Already a variable with this name in this scope."

end StaticError

/-- Where an error is reported: at a token, at the end of the input, or on a line as a whole. -/
inductive Place
  | token (lexeme : String) (line : Int)
  | endOfInput (line : Int)
  | line (line : Int)
deriving DecidableEq, Repr

namespace Place

/-- The place of a token. -/
def ofToken (t : Token) : Place := .token t.lexeme t.line

/-- The line of a place. -/
def lineNumber : Place → Int
  | .token _ n | .endOfInput n | .line n => n

/-- What a report says about the place beside its line. -/
def suffix : Place → String
  | .token lexeme _ => " at '" ++ lexeme ++ "'"
  | .endOfInput _ => " at end"
  | .line _ => ""

end Place

/-- A static error at its place. -/
structure Diagnostic where
  place : Place
  error : StaticError
deriving DecidableEq, Repr

end Treewalk
