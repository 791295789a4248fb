import Treewalk.Token

/-!
# Syntax trees

Statements, expressions and function declarations. A use of a name carries its token and, once
names are resolved, its number of hops: how many scopes lie between the use and the scope that
declares the name. A use without hops means the global of that name.
-/
namespace Treewalk

/-- A use of a name. -/
structure NameUse where
  name : Token
  hops : Option Nat := none
deriving Repr, Inhabited

/-- Operators on one operand. -/
inductive UnaryOp
  | not | negate
deriving DecidableEq, Repr

/-- Operators that evaluate both operands. -/
inductive BinaryOp
  | add | subtract | multiply | divide | remainder
  | equal | notEqual | less | lessEqual | greater | greaterEqual
deriving DecidableEq, Repr

/-- Operators that may skip their right operand. -/
inductive LogicalOp
  | and | or
deriving DecidableEq, Repr

/-- How a variable is declared. -/
inductive Mutability
  | variable | constant
deriving DecidableEq, Repr

mutual

/-- Expressions. Operators, calls and property accesses keep the token at which they can fail. -/
inductive Expr
  | literal (value : Literal)
  | grouping (inner : Expr)
  | name (use : NameUse)
  | assign (use : NameUse) (value : Expr)
  | unary (op : UnaryOp) (token : Token) (operand : Expr)
  | binary (left : Expr) (op : BinaryOp) (token : Token) (right : Expr)
  | logical (left : Expr) (op : LogicalOp) (token : Token) (right : Expr)
  | call (callee : Expr) (paren : Token) (arguments : List Expr)
  | get (object : Expr) (name : Token)
  | set (object : Expr) (name : Token) (value : Expr)
  | this (use : NameUse)
  | super (use : NameUse) (method : Token)
  | lambda (function : FunctionDecl)

/-- Statements. The increment of a loop runs after every iteration that does not leave it. -/
inductive Stmt
  | expression (e : Expr)
  | print (e : Expr)
  | var (mutability : Mutability) (name : Token) (initial : Option Expr)
  | block (body : List Stmt)
  | if (condition : Expr) (thenBranch : Stmt) (elseBranch : Option Stmt)
  | while (condition : Expr) (body : Stmt) (increment : Option Expr)
  | break (keyword : Token)
  | continue (keyword : Token)
  | return (keyword : Token) (value : Option Expr)
  | function (declaration : FunctionDecl)
  | class (name : Token) (superclass : Option NameUse) (methods : List FunctionDecl)
  | importModule (keyword name : Token) (as : Option Token)

/-- Functions, methods and, without a name, lambda expressions. -/
inductive FunctionDecl
  | mk (name : Option Token) (parameters : List Token) (body : List Stmt)

end

deriving instance Repr for Expr, Stmt, FunctionDecl

instance : Inhabited Expr := ⟨.literal .nil⟩
instance : Inhabited FunctionDecl := ⟨.mk none [] []⟩
instance : Inhabited Stmt := ⟨.block []⟩

namespace FunctionDecl

/-- The name token, unless the function is a lambda expression. -/
def name : FunctionDecl → Option Token
  | .mk name _ _ => name

/-- The parameters in order. -/
def parameters : FunctionDecl → List Token
  | .mk _ parameters _ => parameters

/-- The statements of the body. -/
def body : FunctionDecl → List Stmt
  | .mk _ _ body => body

/-- The name by which a function is shown. -/
def displayName (f : FunctionDecl) : String :=
  match f.name with
  | some t => t.lexeme
  | none => "lambda"

end FunctionDecl

/-- The module that an import statement names: the spelling of an identifier, the text of a
string. -/
def importedModule (name : Token) : String :=
  match name.literal with
  | some (.text s) => s
  | _ => name.lexeme

/-- The name that an import statement binds: the alias if there is one. -/
def importBinding (name : Token) (as : Option Token) : String :=
  match as with
  | some t => t.lexeme
  | none => importedModule name

end Treewalk
