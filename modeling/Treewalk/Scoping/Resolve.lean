import Treewalk.Scoping
import Treewalk.Scoping.ImportName

/-!
# Name resolution

One pass over a tree that fills in the hops of every use and reports scoping errors. Errors never
stop it. It recurses on the number of nesting levels left.
-/
namespace Treewalk
namespace Resolve

/-- What a method is to name resolution. -/
def methodContext (method : FunctionDecl) : FunctionContext :=
  match method.name with
  | some t => if t.lexeme = "init" then .initializer else .method
  | none => .method

/-- Declares and defines a parameter, or any name that is complete at once. -/
def bind (token : Token) (name : String) : Resolve Unit :=
  modify fun s => (s.declare token name).define name

/-- Reports a field write on a name that denotes a constant. -/
def checkFieldWrite (object : Expr) (name : Token) : Resolve Unit := do
  match object with
  | .name use =>
      if (← get).isConstant use.name.lexeme then report name .constantFieldModified
  | _ => return

/-- Reports a use of the superclass where there is none. -/
def checkSuper (keyword : Token) : Resolve Unit := do
  match (← get).classContext with
  | .none => report keyword .superOutsideClass
  | .root => report keyword .superWithoutSuperclass
  | .derived => return

/-- Reports a return that stands outside all functions or gives an initializer a value. -/
def checkReturn (keyword : Token) : Resolve Unit := do
  if (← get).function = .none then report keyword .returnOutsideFunction

mutual

/-- Resolves an expression. -/
def expression : Nat → Expr → Resolve Expr
  | 0, _ => throw ()
  | levels + 1, e =>
      match e with
      | .literal value => return .literal value
      | .grouping inner => return .grouping (← expression levels inner)
      | .name use => return .name (← read use)
      | .assign use value => do
          let value ← expression levels value
          if (← get).isConstant use.name.lexeme then report use.name .constantReassigned
          return .assign (← lookUp .assign use) value
      | .unary op token operand => return .unary op token (← expression levels operand)
      | .binary left op token right => do
          let left ← expression levels left
          return .binary left op token (← expression levels right)
      | .logical left op token right => do
          let left ← expression levels left
          return .logical left op token (← expression levels right)
      | .call callee paren arguments => do
          let callee ← expression levels callee
          return .call callee paren (← arguments.mapM (expression levels))
      | .get object name => return .get (← expression levels object) name
      | .set object name value => do
          let value ← expression levels value
          checkFieldWrite object name
          return .set (← expression levels object) name value
      | .this use => do
          if (← get).classContext = .none then
            report use.name .thisOutsideClass
            return .this use
          else return .this (← lookUp .this use)
      | .super use method => do
          checkSuper use.name
          return .super (← lookUp .super use) method
      | .lambda function => return .lambda (← functionBody levels .lambda function)

/-- Resolves a statement. -/
def statement : Nat → Stmt → Resolve Stmt
  | 0, _ => throw ()
  | levels + 1, s =>
      match s with
      | .expression e => return .expression (← expression levels e)
      | .print e => return .print (← expression levels e)
      | .var mutability name initial => do
          modify fun s => s.declare name name.lexeme
          let initial ← initial.mapM fun e => initializing name.lexeme (expression levels e)
          modify fun s => (s.define name.lexeme).setMutability name.lexeme mutability
          return .var mutability name initial
      | .block body => return .block (← inScope [] (body.mapM (statement levels)))
      | .if condition thenBranch elseBranch => do
          let condition ← expression levels condition
          let thenBranch ← statement levels thenBranch
          return .if condition thenBranch (← elseBranch.mapM (statement levels))
      | .while condition body increment =>
          inLoop do
            let condition ← expression levels condition
            let body ← statement levels body
            return .while condition body (← increment.mapM (expression levels))
      | .break keyword => do
          if !(← get).inLoop then report keyword .breakOutsideLoop
          return .break keyword
      | .continue keyword => do
          if !(← get).inLoop then report keyword .continueOutsideLoop
          return .continue keyword
      | .return keyword value => do
          checkReturn keyword
          if value.isSome ∧ (← get).function = .initializer then
            report keyword .returnFromInitializer
          return .return keyword (← value.mapM (expression levels))
      | .function declaration => do
          if let some name := declaration.name then bind name name.lexeme
          return .function (← functionBody levels .function declaration)
      | .class name none methods =>
          inClass .root do
            bind name name.lexeme
            return .class name none (← inScope ["this"] (methods.mapM (method levels)))
      | .class name (some superclass) methods =>
          inClass .derived do
            bind name name.lexeme
            if superclass.name.lexeme = name.lexeme then
              report superclass.name .selfInheritance
            let superclass ← read superclass
            return .class name superclass
              (← inScope ["super"] (inScope ["this"] (methods.mapM (method levels))))
      | .importModule keyword name as => do
          match importNameError? (importedModule name) as.isSome with
          | some error => report name (.importName error)
          | none => bind (as.getD name) (importBinding name as)
          return .importModule keyword name as

/-- Resolves a method of a class. -/
def method : Nat → FunctionDecl → Resolve FunctionDecl
  | 0, _ => throw ()
  | levels + 1, f => functionBody levels (methodContext f) f

/-- Resolves parameters and body of a function in a scope of their own. -/
def functionBody : Nat → FunctionContext → FunctionDecl → Resolve FunctionDecl
  | 0, _, _ => throw ()
  | levels + 1, context, .mk name parameters body =>
      inFunction context <| inScope [] do
        parameters.forM fun p => bind p p.lexeme
        return .mk name parameters (← body.mapM (statement levels))

end
end Resolve
end Treewalk
