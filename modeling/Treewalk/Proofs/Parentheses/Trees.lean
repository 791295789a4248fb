import Treewalk.Tree
import Mathlib.Data.List.Forall2

/-!
# Parentheses

Parentheses are nodes of the tree. A tree with parentheses around some of its expressions nests
deeper; besides, a name in parentheses is no longer a name by itself, which matters where a property
of it is set.
-/
namespace Treewalk

/-- Whether an expression is a name by itself, in no parentheses. -/
def Expr.isName : Expr → Bool
  | .name _ => true
  | _ => false

mutual

/-- The second expression is the first one with parentheses around some expressions in it. Around
the bare name of an object they stand only where `P` holds of the property that is set. -/
inductive Expr.Grouped (P : Token → Prop) : Expr → Expr → Prop
  | parens {e e' : Expr} : Expr.Grouped P e e' → Expr.Grouped P e (.grouping e')
  | literal (value : Literal) : Expr.Grouped P (.literal value) (.literal value)
  | grouping {e e' : Expr} : Expr.Grouped P e e' → Expr.Grouped P (.grouping e) (.grouping e')
  | name (use : NameUse) : Expr.Grouped P (.name use) (.name use)
  | assign {use : NameUse} {e e' : Expr} : Expr.Grouped P e e' →
      Expr.Grouped P (.assign use e) (.assign use e')
  | unary {op : UnaryOp} {token : Token} {e e' : Expr} : Expr.Grouped P e e' →
      Expr.Grouped P (.unary op token e) (.unary op token e')
  | binary {a a' b b' : Expr} {op : BinaryOp} {token : Token} : Expr.Grouped P a a' →
      Expr.Grouped P b b' → Expr.Grouped P (.binary a op token b) (.binary a' op token b')
  | logical {a a' b b' : Expr} {op : LogicalOp} {token : Token} : Expr.Grouped P a a' →
      Expr.Grouped P b b' → Expr.Grouped P (.logical a op token b) (.logical a' op token b')
  | call {callee callee' : Expr} {paren : Token} {es es' : List Expr} :
      Expr.Grouped P callee callee' → List.Forall₂ (Expr.Grouped P) es es' →
      Expr.Grouped P (.call callee paren es) (.call callee' paren es')
  | get {e e' : Expr} {name : Token} : Expr.Grouped P e e' →
      Expr.Grouped P (.get e name) (.get e' name)
  | set {a a' b b' : Expr} {name : Token} : (a.isName = true → a'.isName = true ∨ P name) →
      Expr.Grouped P a a' → Expr.Grouped P b b' →
      Expr.Grouped P (.set a name b) (.set a' name b')
  | this (use : NameUse) : Expr.Grouped P (.this use) (.this use)
  | super (use : NameUse) (method : Token) :
      Expr.Grouped P (.super use method) (.super use method)
  | lambda {d d' : FunctionDecl} : FunctionDecl.Grouped P d d' →
      Expr.Grouped P (.lambda d) (.lambda d')

/-- The name of a superclass is no expression, so there are no parentheses around it. -/
inductive Stmt.Grouped (P : Token → Prop) : Stmt → Stmt → Prop
  | expression {e e' : Expr} : Expr.Grouped P e e' →
      Stmt.Grouped P (.expression e) (.expression e')
  | print {e e' : Expr} : Expr.Grouped P e e' → Stmt.Grouped P (.print e) (.print e')
  | var {mutability : Mutability} {name : Token} {e e' : Option Expr} :
      Option.Rel (Expr.Grouped P) e e' →
      Stmt.Grouped P (.var mutability name e) (.var mutability name e')
  | block {ss ss' : List Stmt} : List.Forall₂ (Stmt.Grouped P) ss ss' →
      Stmt.Grouped P (.block ss) (.block ss')
  | if {c c' : Expr} {s s' : Stmt} {t t' : Option Stmt} : Expr.Grouped P c c' →
      Stmt.Grouped P s s' → Option.Rel (Stmt.Grouped P) t t' →
      Stmt.Grouped P (.if c s t) (.if c' s' t')
  | while {c c' : Expr} {s s' : Stmt} {e e' : Option Expr} : Expr.Grouped P c c' →
      Stmt.Grouped P s s' → Option.Rel (Expr.Grouped P) e e' →
      Stmt.Grouped P (.while c s e) (.while c' s' e')
  | break (keyword : Token) : Stmt.Grouped P (.break keyword) (.break keyword)
  | continue (keyword : Token) : Stmt.Grouped P (.continue keyword) (.continue keyword)
  | return {keyword : Token} {e e' : Option Expr} : Option.Rel (Expr.Grouped P) e e' →
      Stmt.Grouped P (.return keyword e) (.return keyword e')
  | function {d d' : FunctionDecl} : FunctionDecl.Grouped P d d' →
      Stmt.Grouped P (.function d) (.function d')
  | class {name : Token} {superclass : Option NameUse} {ds ds' : List FunctionDecl} :
      List.Forall₂ (FunctionDecl.Grouped P) ds ds' →
      Stmt.Grouped P (.class name superclass ds) (.class name superclass ds')
  | importModule (keyword name : Token) (as : Option Token) :
      Stmt.Grouped P (.importModule keyword name as) (.importModule keyword name as)

inductive FunctionDecl.Grouped (P : Token → Prop) : FunctionDecl → FunctionDecl → Prop
  | mk {name : Option Token} {parameters : List Token} {ss ss' : List Stmt} :
      List.Forall₂ (Stmt.Grouped P) ss ss' →
      FunctionDecl.Grouped P (.mk name parameters ss) (.mk name parameters ss')

end

variable {P : Token → Prop}

/-- A name in no parentheses is the same name. -/
theorem Expr.Grouped.eq_of_isName {e e' : Expr} (h : e.Grouped P e') (he : e'.isName = true) :
    e' = e := by
  cases h with
  | name use => rfl
  | _ => cases he

namespace FunctionDecl.Grouped
variable {d d' : FunctionDecl}

theorem name (h : d.Grouped P d') : d'.name = d.name := by
  cases h
  rfl

theorem parameters (h : d.Grouped P d') : d'.parameters = d.parameters := by
  cases h
  rfl

theorem displayName (h : d.Grouped P d') : d'.displayName = d.displayName := by
  cases h
  rfl

theorem body (h : d.Grouped P d') : List.Forall₂ (Stmt.Grouped P) d.body d'.body := by
  cases h with
  | mk hss => exact hss

end FunctionDecl.Grouped

/-! ### No parentheses -/

mutual

/-- There need not be any parentheses. -/
theorem Expr.grouped_self : (e : Expr) → e.Grouped P e
  | .literal value => .literal value
  | .grouping inner => .grouping inner.grouped_self
  | .name use => .name use
  | .assign _ value => .assign value.grouped_self
  | .unary _ _ operand => .unary operand.grouped_self
  | .binary left _ _ right => .binary left.grouped_self right.grouped_self
  | .logical left _ _ right => .logical left.grouped_self right.grouped_self
  | .call callee _ arguments => .call callee.grouped_self (grouped_exprs arguments)
  | .get object _ => .get object.grouped_self
  | .set object _ value => .set .inl object.grouped_self value.grouped_self
  | .this use => .this use
  | .super use method => .super use method
  | .lambda function => .lambda function.grouped_self

theorem Stmt.grouped_self : (s : Stmt) → s.Grouped P s
  | .expression e => .expression e.grouped_self
  | .print e => .print e.grouped_self
  | .var _ _ initial => .var (grouped_expr? initial)
  | .block body => .block (grouped_stmts body)
  | .if condition thenBranch elseBranch =>
      .if condition.grouped_self thenBranch.grouped_self (grouped_stmt? elseBranch)
  | .while condition body increment =>
      .while condition.grouped_self body.grouped_self (grouped_expr? increment)
  | .break keyword => .break keyword
  | .continue keyword => .continue keyword
  | .return _ value => .return (grouped_expr? value)
  | .function declaration => .function declaration.grouped_self
  | .class _ _ methods => .class (grouped_functions methods)
  | .importModule keyword name as => .importModule keyword name as

theorem FunctionDecl.grouped_self : (d : FunctionDecl) → d.Grouped P d
  | .mk _ _ body => .mk (grouped_stmts body)

theorem grouped_exprs : (es : List Expr) → List.Forall₂ (Expr.Grouped P) es es
  | [] => .nil
  | e :: es => .cons e.grouped_self (grouped_exprs es)

theorem grouped_expr? : (e : Option Expr) → Option.Rel (Expr.Grouped P) e e
  | none => .none
  | some e => .some e.grouped_self

theorem grouped_stmts : (ss : List Stmt) → List.Forall₂ (Stmt.Grouped P) ss ss
  | [] => .nil
  | s :: ss => .cons s.grouped_self (grouped_stmts ss)

theorem grouped_stmt? : (s : Option Stmt) → Option.Rel (Stmt.Grouped P) s s
  | none => .none
  | some s => .some s.grouped_self

theorem grouped_functions : (ds : List FunctionDecl) → List.Forall₂ (FunctionDecl.Grouped P) ds ds
  | [] => .nil
  | d :: ds => .cons d.grouped_self (grouped_functions ds)

end
end Treewalk
