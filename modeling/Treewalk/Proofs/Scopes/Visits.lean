import Treewalk.CompiledUnit
import Treewalk.Proofs.Watching
import Treewalk.Proofs.Scopes.Position

/-!
# What name resolution visits

Name resolution, watched: scopes are numbered as they are opened. Of every node it notes the scopes
that are open when the node is visited, with their numbers and with the node as it is resolved, and
of every scope what is in it when it is closed.
-/
namespace Treewalk

inductive Visit
  | opened
  | visited (ids : List Nat) (scopes : List StaticScope) (n : Node)
  | closed (id : Nat) (c : Construct) (scope : StaticScope)

/-- Name resolution with notes. -/
abbrev Visiting (α : Type) := EStateM Unit (Watched Scoping Visit) α

namespace Visiting
open Watched
variable {α : Type}

/-- Notes the scopes around a node and what becomes of it. -/
def visit (ids : List Nat) (node : α → Node) (p : Visiting α) : Visiting α := do
  let s ← look
  let a ← p
  note (.visited ids s.scopes (node a))
  return a

/-- Something between a change of the surroundings and the change back. -/
def within (enter : Scoping → Scoping) (leave : Scoping → Scoping → Scoping) (p : Visiting α) :
    Visiting α := do
  let before ← look
  quietly (modify enter)
  let a ← p
  quietly (modify (leave before))
  return a

/-- A number that no scope has yet: the number of notes. -/
def fresh : Visiting Nat := do
  let s ← get
  note .opened
  return s.notes.length

/-- Something in a new scope, which belongs to the constructs that result. -/
def inScope (ids : List Nat) (names : List String) (constructs : α → List Construct)
    (p : List Nat → Visiting α) : Visiting α := do
  let id ← fresh
  quietly (modify fun s => s.enter names)
  let a ← p (id :: ids)
  let s ← look
  (constructs a).forM fun c => note (.closed id c (s.scopes.headD {}))
  quietly (modify Scoping.leave)
  return a

def inFunction (context : FunctionContext) (p : Visiting α) : Visiting α :=
  within (fun s => { s with function := context, inLoop := false })
    (fun before s => { s with function := before.function, inLoop := before.inLoop }) p

def inLoop (p : Visiting α) : Visiting α :=
  within (fun s => { s with inLoop := true }) (fun before s => { s with inLoop := before.inLoop }) p

def inClass (context : ClassContext) (p : Visiting α) : Visiting α :=
  within (fun s => { s with classContext := context })
    (fun before s => { s with classContext := before.classContext }) p

def initializing (name : String) (p : Visiting α) : Visiting α :=
  within
    (fun s =>
      if s.scopes.isEmpty then { s with initializing := s.initializing.insert name } else s)
    (fun _ s => { s with initializing := s.initializing.filter (· ≠ name) }) p

mutual

def expression : Nat → List Nat → Expr → Visiting Expr
  | 0, _, _ => throw ()
  | levels + 1, ids, e =>
      visit ids .expr <|
      match e with
      | .literal value => return .literal value
      | .grouping inner => return .grouping (← expression levels ids inner)
      | .name use => return .name (← quietly (Resolve.read use))
      | .assign use value => do
          let value ← expression levels ids value
          quietly do
            if (← get).isConstant use.name.lexeme then
              Resolve.report use.name .constantReassigned
          return .assign (← quietly (Resolve.lookUp .assign use)) value
      | .unary op token operand => return .unary op token (← expression levels ids operand)
      | .binary left op token right => do
          let left ← expression levels ids left
          return .binary left op token (← expression levels ids right)
      | .logical left op token right => do
          let left ← expression levels ids left
          return .logical left op token (← expression levels ids right)
      | .call callee paren arguments => do
          let callee ← expression levels ids callee
          return .call callee paren (← arguments.mapM (expression levels ids))
      | .get object name => return .get (← expression levels ids object) name
      | .set object name value => do
          let value ← expression levels ids value
          quietly (Resolve.checkFieldWrite object name)
          return .set (← expression levels ids object) name value
      | .this use => do
          if (← look).classContext = .none then
            quietly (Resolve.report use.name .thisOutsideClass)
            return .this use
          else return .this (← quietly (Resolve.lookUp .this use))
      | .super use method => do
          quietly (Resolve.checkSuper use.name)
          return .super (← quietly (Resolve.lookUp .super use)) method
      | .lambda function => return .lambda (← functionBody levels ids .lambda function)

def statement : Nat → List Nat → Stmt → Visiting Stmt
  | 0, _, _ => throw ()
  | levels + 1, ids, s =>
      visit ids .stmt <|
      match s with
      | .expression e => return .expression (← expression levels ids e)
      | .print e => return .print (← expression levels ids e)
      | .var mutability name initial => do
          quietly (modify fun s => s.declare name name.lexeme)
          let initial ←
            initial.mapM fun e => initializing name.lexeme (expression levels ids e)
          quietly (modify fun s =>
            (s.define name.lexeme).setMutability name.lexeme mutability)
          return .var mutability name initial
      | .block body => do
          let body ← inScope ids [] (fun body => [.block body]) fun ids =>
            body.mapM (statement levels ids)
          return .block body
      | .if condition thenBranch elseBranch => do
          let condition ← expression levels ids condition
          let thenBranch ← statement levels ids thenBranch
          return .if condition thenBranch (← elseBranch.mapM (statement levels ids))
      | .while condition body increment =>
          inLoop do
            let condition ← expression levels ids condition
            let body ← statement levels ids body
            return .while condition body (← increment.mapM (expression levels ids))
      | .break keyword => do
          quietly do
            if !(← get).inLoop then Resolve.report keyword .breakOutsideLoop
          return .break keyword
      | .continue keyword => do
          quietly do
            if !(← get).inLoop then Resolve.report keyword .continueOutsideLoop
          return .continue keyword
      | .return keyword value => do
          quietly (Resolve.checkReturn keyword)
          quietly do
            if value.isSome ∧ (← get).function = .initializer then
              Resolve.report keyword .returnFromInitializer
          return .return keyword (← value.mapM (expression levels ids))
      | .function declaration => do
          quietly do
            if let some name := declaration.name then Resolve.bind name name.lexeme
          return .function (← functionBody levels ids .function declaration)
      | .class name none methods =>
          inClass .root do
            quietly (Resolve.bind name name.lexeme)
            let methods ←
              inScope ids ["this"] (fun fs => fs.map .this) fun ids =>
                methods.mapM (method levels ids)
            return .class name none methods
      | .class name (some superclass) methods =>
          inClass .derived do
            quietly (Resolve.bind name name.lexeme)
            quietly do
              if superclass.name.lexeme = name.lexeme then
                Resolve.report superclass.name .selfInheritance
            let superclass ←
              visit ids (fun use => .expr (.name use)) (quietly (Resolve.read superclass))
            let methods ←
              inScope ids ["super"] (fun fs => [.super fs]) fun ids =>
                inScope ids ["this"] (fun fs => fs.map .this) fun ids =>
                  methods.mapM (method levels ids)
            return .class name superclass methods
      | .importModule keyword name as => do
          quietly do
            match importNameError? (importedModule name) as.isSome with
            | some error => Resolve.report name (.importName error)
            | none => Resolve.bind (as.getD name) (importBinding name as)
          return .importModule keyword name as

def method : Nat → List Nat → FunctionDecl → Visiting FunctionDecl
  | 0, _, _ => throw ()
  | levels + 1, ids, f => functionBody levels ids (Resolve.methodContext f) f

def functionBody : Nat → List Nat → FunctionContext → FunctionDecl → Visiting FunctionDecl
  | 0, _, _, _ => throw ()
  | levels + 1, ids, context, .mk name parameters body =>
      visit ids .function <| inFunction context <|
        inScope ids [] (fun f => [.function f]) fun ids => do
          parameters.forM fun p => quietly (Resolve.bind p p.lexeme)
          return .mk name parameters (← body.mapM (statement levels ids))

end

/-! ### Nothing else changes -/

theorem visit_erases {ids : List Nat} {node : α → Node} {p : Visiting α} {q : Resolve α}
    (h : Erases p q) : Erases (visit ids node p) q := by
  refine .looking fun w => ?_
  rw [← bind_pure q]
  exact .bind h fun a => .noting _ (.pure a)

theorem within_erases {enter : Scoping → Scoping} {leave : Scoping → Scoping → Scoping}
    {p : Visiting α} {q : Resolve α} (h : Erases p q) :
    Erases (within enter leave p) (do
      let before ← get
      modify enter
      let a ← q
      modify (leave before)
      return a) :=
  .bind .look fun _ => .bind (.quietly _) fun _ => .bind h fun a =>
    .bind (.quietly _) fun _ => .pure a

theorem fresh_erases {f : Nat → Visiting α} {q : Resolve α} (h : ∀ id, Erases (f id) q) :
    Erases (fresh >>= f) q :=
  fun s => h s.notes.length { s with notes := .opened :: s.notes }

theorem inScope_erases {ids : List Nat} {names : List String} {constructs : α → List Construct}
    {p : List Nat → Visiting α} {q : Resolve α} (h : ∀ ids, Erases (p ids) q) :
    Erases (inScope ids names constructs p) (Resolve.inScope names q) := by
  have hclose : ∀ (id : Nat) (a : α) (scope : StaticScope) (cs : List Construct), Erases
      (cs.forM (fun c => note (.closed id c scope)) >>= fun _ =>
        quietly (modify Scoping.leave) >>= fun _ => pure a : Visiting α)
      (modify Scoping.leave >>= fun _ => pure a) := by
    intro id a scope cs
    induction cs with
    | nil =>
        have hleave : Erases (quietly (modify Scoping.leave) >>= fun _ => pure a : Visiting α)
            (modify Scoping.leave >>= fun _ => pure a) := .bind (.quietly _) fun _ => .pure a
        exact fun s => hleave s
    | cons c cs ih => exact fun s => ih { s with notes := .closed id c scope :: s.notes }
  exact fresh_erases fun id => .bind (.quietly _) fun _ => .bind (h _) fun a =>
    .looking fun w => hclose id a _ (constructs a)

theorem inFunction_erases {context : FunctionContext} {p : Visiting α} {q : Resolve α}
    (h : Erases p q) : Erases (inFunction context p) (Resolve.inFunction context q) :=
  within_erases h

theorem inLoop_erases {p : Visiting α} {q : Resolve α} (h : Erases p q) :
    Erases (inLoop p) (Resolve.inLoop q) := within_erases h

theorem inClass_erases {context : ClassContext} {p : Visiting α} {q : Resolve α}
    (h : Erases p q) : Erases (inClass context p) (Resolve.inClass context q) := within_erases h

theorem initializing_eq (name : String) (q : Resolve α) :
    Resolve.initializing name q = (do
      let _ ← get
      modify fun s =>
        if s.scopes.isEmpty then { s with initializing := s.initializing.insert name } else s
      let a ← q
      modify fun s => { s with initializing := s.initializing.filter (· ≠ name) }
      return a) := by
  funext s
  unfold Resolve.initializing
  rw [Watched.get_bind, Watched.get_bind, Watched.modify_bind]
  by_cases h : s.scopes.isEmpty = true
  · rw [if_pos h, if_pos h]
    rfl
  · rw [if_neg h, if_neg h]

theorem initializing_erases {name : String} {p : Visiting α} {q : Resolve α} (h : Erases p q) :
    Erases (initializing name p) (Resolve.initializing name q) := by
  rw [initializing_eq]
  exact within_erases h

/-- Watched name resolution at a nesting level is name resolution. -/
structure LevelErases (levels : Nat) : Prop where
  expression : ∀ ids e, Erases (expression levels ids e) (Resolve.expression levels e)
  statement : ∀ ids s, Erases (statement levels ids s) (Resolve.statement levels s)
  method : ∀ ids f, Erases (method levels ids f) (Resolve.method levels f)
  functionBody : ∀ ids context f,
    Erases (functionBody levels ids context f) (Resolve.functionBody levels context f)

namespace LevelErases
variable {levels : Nat}

theorem optional {β : Type} {f : α → Visiting β} {g : α → Resolve β} (h : ∀ a, Erases (f a) (g a))
    (o : Option α) : Erases (o.mapM f) (o.mapM g) := by
  cases o with
  | none => exact .pure none
  | some a => exact .map (h a) some

theorem expression_succ (ih : LevelErases levels) (ids : List Nat) (e : Expr) :
    Erases (Visiting.expression (levels + 1) ids e) (Resolve.expression (levels + 1) e) := by
  unfold Visiting.expression Resolve.expression
  refine visit_erases ?_
  cases e with
  | literal value => exact .pure _
  | grouping inner => exact .bind (ih.expression ids inner) fun _ => .pure _
  | name use => exact .bind (.quietly _) fun _ => .pure _
  | assign use value =>
      refine .bind (ih.expression ids value) fun value => .checking ?_
      exact .bind (.quietly _) fun _ => .pure _
  | unary op token operand => exact .bind (ih.expression ids operand) fun _ => .pure _
  | binary left op token right =>
      exact .bind (ih.expression ids left) fun _ => .bind (ih.expression ids right) fun _ => .pure _
  | logical left op token right =>
      exact .bind (ih.expression ids left) fun _ => .bind (ih.expression ids right) fun _ => .pure _
  | call callee paren arguments =>
      exact .bind (ih.expression ids callee) fun _ =>
        .bind (.mapM (ih.expression ids) arguments) fun _ => .pure _
  | get object name => exact .bind (ih.expression ids object) fun _ => .pure _
  | set object name value =>
      exact .bind (ih.expression ids value) fun _ => .bind (.quietly _) fun _ =>
        .bind (ih.expression ids object) fun _ => .pure _
  | this use =>
      refine .bind .look fun w => ?_
      by_cases h : w.classContext = .none
      · simp only [h, if_true]
        exact .bind (.quietly _) fun _ => .pure _
      · simp only [h, if_false]
        exact .bind (.quietly _) fun _ => .pure _
  | super use method =>
      exact .bind (.quietly _) fun _ => .bind (.quietly _) fun _ => .pure _
  | lambda function => exact .bind (ih.functionBody ids _ function) fun _ => .pure _

theorem statement_succ (ih : LevelErases levels) (ids : List Nat) (s : Stmt) :
    Erases (Visiting.statement (levels + 1) ids s) (Resolve.statement (levels + 1) s) := by
  unfold Visiting.statement Resolve.statement
  refine visit_erases ?_
  cases s with
  | expression e => exact .bind (ih.expression ids e) fun _ => .pure _
  | print e => exact .bind (ih.expression ids e) fun _ => .pure _
  | var mutability name initial =>
      exact .bind (.quietly _) fun _ =>
        .bind (optional (fun e => initializing_erases (ih.expression ids e)) initial) fun _ =>
          .bind (.quietly _) fun _ => .pure _
  | block body => exact .bind (inScope_erases fun ids => .mapM (ih.statement ids) body) fun _ => .pure _
  | «if» condition thenBranch elseBranch =>
      exact .bind (ih.expression ids condition) fun _ => .bind (ih.statement ids thenBranch) fun _ =>
        .bind (optional (ih.statement ids) elseBranch) fun _ => .pure _
  | «while» condition body increment =>
      exact inLoop_erases (.bind (ih.expression ids condition) fun _ =>
        .bind (ih.statement ids body) fun _ =>
          .bind (optional (ih.expression ids) increment) fun _ => .pure _)
  | «break» keyword => exact .checking (.pure _)
  | «continue» keyword => exact .checking (.pure _)
  | «return» keyword value =>
      refine .bind (.quietly _) fun _ => .checking ?_
      exact .bind (optional (ih.expression ids) value) fun _ => .pure _
  | function declaration =>
      have hbody := Erases.bind (ih.functionBody ids .function declaration) fun f =>
        Erases.pure (Stmt.function f)
      cases hname : declaration.name with
      | some name =>
          simp only [hname]
          exact .bind (.quietly _) fun _ => hbody
      | none =>
          simp only [hname]
          exact fun s => hbody s
  | «class» name superclass methods =>
      have hmethods := fun ids => Erases.mapM (ih.method ids) methods
      cases superclass with
      | none =>
          exact inClass_erases (.bind (.quietly _) fun _ =>
            .bind (inScope_erases hmethods) fun _ => .pure _)
      | some use =>
          refine inClass_erases (.bind (.quietly _) fun _ => ?_)
          have hrest : Erases
              (visit ids (fun use => .expr (.name use)) (quietly (Resolve.read use)) >>= fun use =>
                (inScope ids ["super"] (fun fs => [.super fs]) fun ids =>
                  inScope ids ["this"] (fun fs => fs.map .this) fun ids =>
                    methods.mapM (Visiting.method levels ids)) >>= fun methods =>
                pure (Stmt.class name (some use) methods))
              (Resolve.read use >>= fun use =>
                Resolve.inScope ["super"]
                  (Resolve.inScope ["this"] (methods.mapM (Resolve.method levels))) >>=
                    fun methods => pure (Stmt.class name (some use) methods)) :=
            .bind (visit_erases (.quietly _)) fun _ =>
              .bind (inScope_erases fun _ => inScope_erases hmethods) fun _ => .pure _
          by_cases h : use.name.lexeme = name.lexeme
          · simp only [h, if_true]
            exact .bind (.quietly _) fun _ => hrest
          · simp only [h, if_false]
            exact fun s => hrest s
  | importModule keyword name as =>
      cases h : importNameError? (importedModule name) as.isSome with
      | some error =>
          simp only [h]
          exact .bind (.quietly _) fun _ => .pure _
      | none =>
          simp only [h]
          exact .bind (.quietly _) fun _ => .pure _

theorem method_succ (ih : LevelErases levels) (ids : List Nat) (f : FunctionDecl) :
    Erases (Visiting.method (levels + 1) ids f) (Resolve.method (levels + 1) f) :=
  ih.functionBody ids _ f

theorem functionBody_succ (ih : LevelErases levels) (ids : List Nat) (context : FunctionContext)
    (f : FunctionDecl) : Erases (Visiting.functionBody (levels + 1) ids context f)
      (Resolve.functionBody (levels + 1) context f) := by
  cases f with
  | mk name parameters body =>
      exact visit_erases (inFunction_erases (inScope_erases fun ids =>
        .bind (.forM (fun p => .quietly _) parameters) fun _ =>
          .bind (.mapM (ih.statement ids) body) fun _ => .pure _))

end LevelErases

theorem erases (levels : Nat) : LevelErases levels := by
  induction levels with
  | zero =>
      exact
        { expression := fun _ _ => .throw ()
          statement := fun _ _ => .throw ()
          method := fun _ _ => .throw ()
          functionBody := fun _ _ _ => .throw () }
  | succ levels ih =>
      exact
        { expression := ih.expression_succ
          statement := ih.statement_succ
          method := ih.method_succ
          functionBody := ih.functionBody_succ }

/-- Statements of a unit. -/
def statements (levels : Nat) (ss : List Stmt) : Visiting (List Stmt) :=
  ss.mapM (statement levels [])

/-- Watching changes nothing: the resolved statements, the errors and all else are the same. -/
theorem statements_erases (levels : Nat) (ss : List Stmt) :
    Erases (statements levels ss) (ss.mapM (Resolve.statement levels)) :=
  .mapM ((erases levels).statement []) ss

end Visiting
end Treewalk
