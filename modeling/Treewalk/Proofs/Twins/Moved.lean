import Treewalk.Value
import Treewalk.Proofs.Scopes.Position

/-!
# Moved code

The same code some lines further down. Nothing but the lines of its tokens differs.
-/
namespace Treewalk

namespace Token

/-- A token some lines further down. -/
def down (n : Nat) (t : Token) : Token := { t with line := t.line + n }

variable (n : Nat) (t : Token)

@[simp] theorem lexeme_down : (t.down n).lexeme = t.lexeme := rfl

@[simp] theorem literal_down : (t.down n).literal = t.literal := rfl

@[simp] theorem kind_down : (t.down n).kind = t.kind := rfl

@[simp] theorem down_zero : t.down 0 = t := rfl

end Token

namespace NameUse

def down (n : Nat) (use : NameUse) : NameUse := { use with name := use.name.down n }

variable (n : Nat) (use : NameUse)

@[simp] theorem hops_down : (use.down n).hops = use.hops := rfl

@[simp] theorem name_down : (use.down n).name = use.name.down n := rfl

@[simp] theorem down_zero : use.down 0 = use := rfl

end NameUse

mutual

/-- An expression some lines further down. -/
def Expr.down (n : Nat) : Expr → Expr
  | .literal value => .literal value
  | .grouping inner => .grouping (inner.down n)
  | .name use => .name (use.down n)
  | .assign use value => .assign (use.down n) (value.down n)
  | .unary op token operand => .unary op (token.down n) (operand.down n)
  | .binary left op token right => .binary (left.down n) op (token.down n) (right.down n)
  | .logical left op token right => .logical (left.down n) op (token.down n) (right.down n)
  | .call callee paren arguments =>
      .call (callee.down n) (paren.down n) (downExprs n arguments)
  | .get object name => .get (object.down n) (name.down n)
  | .set object name value => .set (object.down n) (name.down n) (value.down n)
  | .this use => .this (use.down n)
  | .super use method => .super (use.down n) (method.down n)
  | .lambda function => .lambda (function.down n)

def downExprs (n : Nat) : List Expr → List Expr
  | [] => []
  | e :: es => e.down n :: downExprs n es

/-- A statement some lines further down. -/
def Stmt.down (n : Nat) : Stmt → Stmt
  | .expression e => .expression (e.down n)
  | .print e => .print (e.down n)
  | .var mutability name none => .var mutability (name.down n) none
  | .var mutability name (some e) => .var mutability (name.down n) (some (e.down n))
  | .block body => .block (downStmts n body)
  | .if condition thenBranch none => .if (condition.down n) (thenBranch.down n) none
  | .if condition thenBranch (some s) =>
      .if (condition.down n) (thenBranch.down n) (some (s.down n))
  | .while condition body none => .while (condition.down n) (body.down n) none
  | .while condition body (some e) => .while (condition.down n) (body.down n) (some (e.down n))
  | .break keyword => .break (keyword.down n)
  | .continue keyword => .continue (keyword.down n)
  | .return keyword none => .return (keyword.down n) none
  | .return keyword (some e) => .return (keyword.down n) (some (e.down n))
  | .function declaration => .function (declaration.down n)
  | .class name superclass methods =>
      .class (name.down n) (superclass.map (NameUse.down n)) (downFunctions n methods)
  | .importModule keyword name as =>
      .importModule (keyword.down n) (name.down n) (as.map (Token.down n))

def downStmts (n : Nat) : List Stmt → List Stmt
  | [] => []
  | s :: ss => s.down n :: downStmts n ss

/-- A function some lines further down. -/
def FunctionDecl.down (n : Nat) : FunctionDecl → FunctionDecl
  | .mk name parameters body =>
      .mk (name.map (Token.down n)) (parameters.map (Token.down n)) (downStmts n body)

def downFunctions (n : Nat) : List FunctionDecl → List FunctionDecl
  | [] => []
  | f :: fs => f.down n :: downFunctions n fs

end

theorem downExprs_eq (n : Nat) (es : List Expr) : downExprs n es = es.map (Expr.down n) := by
  induction es with
  | nil => rw [downExprs, List.map_nil]
  | cons e es ih => rw [downExprs, List.map_cons, ih]

theorem downStmts_eq (n : Nat) (ss : List Stmt) : downStmts n ss = ss.map (Stmt.down n) := by
  induction ss with
  | nil => rw [downStmts, List.map_nil]
  | cons s ss ih => rw [downStmts, List.map_cons, ih]

theorem downFunctions_eq (n : Nat) (fs : List FunctionDecl) :
    downFunctions n fs = fs.map (FunctionDecl.down n) := by
  induction fs with
  | nil => rw [downFunctions, List.map_nil]
  | cons f fs ih => rw [downFunctions, List.map_cons, ih]

namespace FunctionDecl
variable (n : Nat) (f : FunctionDecl)

@[simp] theorem name_down : (f.down n).name = f.name.map (Token.down n) := by
  cases f
  rw [down]
  rfl

@[simp] theorem parameters_down : (f.down n).parameters = f.parameters.map (Token.down n) := by
  cases f
  rw [down]
  rfl

@[simp] theorem body_down : (f.down n).body = f.body.map (Stmt.down n) := by
  cases f
  rw [down, downStmts_eq]
  rfl

@[simp] theorem displayName_down : (f.down n).displayName = f.displayName := by
  unfold displayName
  rw [name_down]
  cases f.name <;> rfl

end FunctionDecl

@[simp] theorem importedModule_down (n : Nat) (t : Token) :
    importedModule (t.down n) = importedModule t := rfl

@[simp] theorem importBinding_down (n : Nat) (t : Token) (as : Option Token) :
    importBinding (t.down n) (as.map (Token.down n)) = importBinding t as := by
  cases as <;> rfl

/-! ### No lines at all -/

mutual

theorem Expr.down_zero : ∀ e : Expr, e.down 0 = e
  | .literal _ => by rw [Expr.down]
  | .grouping inner => by rw [Expr.down, inner.down_zero]
  | .name _ => by rw [Expr.down, NameUse.down_zero]
  | .assign _ value => by rw [Expr.down, NameUse.down_zero, value.down_zero]
  | .unary _ _ operand => by rw [Expr.down, Token.down_zero, operand.down_zero]
  | .binary left _ _ right => by
      rw [Expr.down, Token.down_zero, left.down_zero, right.down_zero]
  | .logical left _ _ right => by
      rw [Expr.down, Token.down_zero, left.down_zero, right.down_zero]
  | .call callee _ arguments => by
      rw [Expr.down, Token.down_zero, callee.down_zero, downExprs_zero arguments]
  | .get object _ => by rw [Expr.down, Token.down_zero, object.down_zero]
  | .set object _ value => by
      rw [Expr.down, Token.down_zero, object.down_zero, value.down_zero]
  | .this _ => by rw [Expr.down, NameUse.down_zero]
  | .super _ _ => by rw [Expr.down, NameUse.down_zero, Token.down_zero]
  | .lambda function => by rw [Expr.down, function.down_zero]

theorem downExprs_zero : ∀ es : List Expr, downExprs 0 es = es
  | [] => by rw [downExprs]
  | e :: es => by rw [downExprs, e.down_zero, downExprs_zero es]

theorem Stmt.down_zero : ∀ s : Stmt, s.down 0 = s
  | .expression e | .print e => by rw [Stmt.down, e.down_zero]
  | .var _ _ none => by rw [Stmt.down, Token.down_zero]
  | .var _ _ (some e) => by rw [Stmt.down, Token.down_zero, e.down_zero]
  | .block body => by rw [Stmt.down, downStmts_zero body]
  | .if condition thenBranch none => by
      rw [Stmt.down, condition.down_zero, thenBranch.down_zero]
  | .if condition thenBranch (some s) => by
      rw [Stmt.down, condition.down_zero, thenBranch.down_zero, s.down_zero]
  | .while condition body none => by rw [Stmt.down, condition.down_zero, body.down_zero]
  | .while condition body (some e) => by
      rw [Stmt.down, condition.down_zero, body.down_zero, e.down_zero]
  | .break _ | .continue _ | .return _ none => by rw [Stmt.down, Token.down_zero]
  | .return _ (some e) => by rw [Stmt.down, Token.down_zero, e.down_zero]
  | .function declaration => by rw [Stmt.down, declaration.down_zero]
  | .class _ superclass methods => by
      have huse : superclass.map (NameUse.down 0) = superclass := congrFun Option.map_id _
      rw [Stmt.down, Token.down_zero, huse, downFunctions_zero methods]
  | .importModule _ _ as => by
      have has : as.map (Token.down 0) = as := congrFun Option.map_id _
      rw [Stmt.down, Token.down_zero, Token.down_zero, has]

theorem downStmts_zero : ∀ ss : List Stmt, downStmts 0 ss = ss
  | [] => by rw [downStmts]
  | s :: ss => by rw [downStmts, s.down_zero, downStmts_zero ss]

theorem FunctionDecl.down_zero : ∀ f : FunctionDecl, f.down 0 = f
  | .mk name parameters body => by
      have hname : name.map (Token.down 0) = name := congrFun Option.map_id _
      have hparameters : parameters.map (Token.down 0) = parameters := List.map_id _
      rw [FunctionDecl.down, hname, hparameters, downStmts_zero body]

theorem downFunctions_zero : ∀ fs : List FunctionDecl, downFunctions 0 fs = fs
  | [] => by rw [downFunctions]
  | f :: fs => by rw [downFunctions, f.down_zero, downFunctions_zero fs]

end

/-! ### Functions and classes -/

namespace Closure

def down (n : Nat) (f : Closure) : Closure := { f with declaration := f.declaration.down n }

variable (n : Nat) (f : Closure)

@[simp] theorem arity_down : (f.down n).arity = f.arity := by
  unfold arity down
  rw [FunctionDecl.parameters_down, List.length_map]

@[simp] theorem down_zero : f.down 0 = f := by
  unfold down
  rw [FunctionDecl.down_zero]

end Closure

namespace Bindings
variable {α β : Type}

/-- The same names for other things. -/
def map (f : α → β) (b : Bindings α) : Bindings β := ⟨b.entries.map fun e => (e.1, f e.2)⟩

theorem find?_map (f : α → β) (b : Bindings α) (name : String) :
    (b.map f).find? name = (b.find? name).map f := by
  obtain ⟨entries⟩ := b
  unfold find? map
  induction entries with
  | nil => rfl
  | cons e entries ih =>
      obtain ⟨x, a⟩ := e
      by_cases hx : x = name
      · simp only [List.map_cons, lookup, hx, if_true, Option.map_some]
      · simp only [List.map_cons, lookup, hx, if_false]
        exact ih

theorem map_insert (f : α → β) (b : Bindings α) (name : String) (a : α) :
    (b.insert name a).map f = (b.map f).insert name (f a) := by
  obtain ⟨entries⟩ := b
  unfold insert map
  congr 1
  induction entries with
  | nil => rfl
  | cons e entries ih =>
      obtain ⟨x, a'⟩ := e
      by_cases hx : x = name
      · simp only [List.map_cons, put, hx, if_true]
      · simp only [List.map_cons, put, hx, if_false, ih]

theorem map_id_of {f : α → α} (h : ∀ a, f a = a) (b : Bindings α) : b.map f = b := by
  obtain ⟨entries⟩ := b
  unfold map
  simp only [h, List.map_id']

end Bindings

namespace ClassObject

def down (n : Nat) (c : ClassObject) : ClassObject := { c with methods := c.methods.map (Closure.down n) }

theorem down_zero (c : ClassObject) : c.down 0 = c := by
  unfold down
  rw [Bindings.map_id_of Closure.down_zero]

end ClassObject
end Treewalk
