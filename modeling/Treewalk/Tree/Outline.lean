import Treewalk.Tree

/-!
# Tree outlines

A tree as parenthesised text, one construct a pair of parentheses. Bodies stand between braces,
a statement a line, each line indented by its depth.
-/
namespace Treewalk

/-- Parentheses around words. -/
def outlineForm (parts : List String) : String := "(" ++ " ".intercalate parts ++ ")"

/-- Braces around the lines of a body that stands at the given depth. -/
def outlineBlock (indent : String) (depth : Nat) (lines : List String) : String :=
  let margin (n : Nat) : String := String.join (List.replicate n indent)
  "\n".intercalate
    (["\x7b"] ++ lines.map (margin (depth + 1) ++ ·) ++ [margin depth ++ "\x7d"])

/-- A literal as in source text, except that a string's characters stand for themselves. -/
def Literal.outline : Literal → String
  | .nil => "nil"
  | .bool b => if b then "true" else "false"
  | .number x => NumberLayout.outline.write x
  | .text s => "\x22" ++ s ++ "\x22"

mutual

/-- The outline of an expression at the given depth. -/
def Expr.outline (indent : String) (depth : Nat) : Expr → String
  | .literal value => value.outline
  | .grouping inner => outlineForm ["par", inner.outline indent depth]
  | .name use => use.name.lexeme
  | .assign use value =>
      outlineForm ["let", use.name.lexeme, "=", value.outline indent depth]
  | .unary _ token operand => outlineForm [token.lexeme, operand.outline indent depth]
  | .binary left _ token right =>
      outlineForm [token.lexeme, left.outline indent depth, right.outline indent depth]
  | .logical left _ token right =>
      outlineForm [token.lexeme, left.outline indent depth, right.outline indent depth]
  | .call callee _ arguments =>
      outlineForm ("call" :: callee.outline indent depth :: outlineExprs indent depth arguments)
  | .get object name => outlineForm [".", object.outline indent depth, name.lexeme]
  | .set object name value =>
      outlineForm [".=", object.outline indent depth, name.lexeme, value.outline indent depth]
  | .this _ => "this"
  | .super _ method => outlineForm ["super", method.lexeme]
  | .lambda function => function.outline indent depth

/-- The outlines of expressions. -/
def outlineExprs (indent : String) (depth : Nat) : List Expr → List String
  | [] => []
  | e :: es => e.outline indent depth :: outlineExprs indent depth es

/-- The outline of a statement at the given depth. -/
def Stmt.outline (indent : String) (depth : Nat) : Stmt → String
  | .expression e => e.outline indent depth
  | .print e => outlineForm ["out", e.outline indent depth]
  | .var mutability name initial =>
      let keyword :=
        match mutability with
        | .constant => "const"
        | .variable => "new"
      let value :=
        match initial with
        | some e => e.outline indent depth
        | none => "nil"
      outlineForm [keyword, name.lexeme, "=", value]
  | .block body => outlineBlock indent depth (outlineStmts indent (depth + 1) body)
  | .if condition thenBranch elseBranch =>
      let last :=
        match elseBranch with
        | some s => [s.outline indent depth]
        | none => []
      outlineForm
        ("if" :: condition.outline indent depth :: thenBranch.outline indent depth :: last)
  | .while condition body increment =>
      let last :=
        match increment with
        | some e => [e.outline indent depth]
        | none => []
      outlineForm ("while" :: condition.outline indent depth :: body.outline indent depth :: last)
  | .break _ => outlineForm ["break"]
  | .continue _ => outlineForm ["continue"]
  | .return _ value =>
      let last :=
        match value with
        | some e => [e.outline indent depth]
        | none => []
      outlineForm ("return" :: last)
  | .function declaration => declaration.outline indent depth
  | .class name superclass methods =>
      let head :=
        match superclass with
        | some use => [name.lexeme, ":", use.name.lexeme]
        | none => [name.lexeme]
      outlineForm
        ("class" :: head ++
          [outlineBlock indent depth (outlineFunctions indent (depth + 1) methods)])
  | .importModule _ name as =>
      let last :=
        match as with
        | some t => ["as", t.lexeme]
        | none => []
      outlineForm ("import" :: name.lexeme :: last)

/-- The outlines of statements. -/
def outlineStmts (indent : String) (depth : Nat) : List Stmt → List String
  | [] => []
  | s :: ss => s.outline indent depth :: outlineStmts indent depth ss

/-- The outline of a function at the given depth. -/
def FunctionDecl.outline (indent : String) (depth : Nat) : FunctionDecl → String
  | .mk name parameters body =>
      let shown :=
        match name with
        | some t => t.lexeme
        | none => "lambda"
      outlineForm
        ["fun", shown, outlineForm (parameters.map Token.lexeme),
          outlineBlock indent depth (outlineStmts indent (depth + 1) body)]

/-- The outlines of functions. -/
def outlineFunctions (indent : String) (depth : Nat) : List FunctionDecl → List String
  | [] => []
  | f :: fs => f.outline indent depth :: outlineFunctions indent depth fs

end

/-- The outline of a program, a statement after the other. -/
def outlineProgram (indent : String) (statements : List Stmt) : String :=
  "\n".intercalate (outlineStmts indent 0 statements)

end Treewalk
