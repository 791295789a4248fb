import Treewalk.CompiledUnit

/-!
# Reads of a variable in its own initial value

Where the initial value of a variable reads a variable of that name, another one is meant: one of an
outer scope, or a global that is known already. If there is none the read is reported. For a global
there is an exception: it is taken for known as soon as its initial value has declared a local
variable of that name with an initial value of its own.
-/
namespace Treewalk

/-- An open scope: the names declared in it so far, and the one whose initial value is being made.
-/
structure OpenScope where
  names : List String := []
  making : Option String := none

/-- What is declared around a node. -/
structure Around where
  /-- The open scopes, innermost first. -/
  scopes : List OpenScope := []
  globals : List String := []
  /-- The global whose initial value is being made. -/
  making : Option String := none
  /-- The local variables that have got an initial value in it. -/
  made : List String := []

namespace Around

/-- The variable in whose initial value a node stands, unless a function stands in between. -/
def own? (a : Around) : Option String :=
  match a.scopes with
  | [] => a.making
  | o :: _ => o.making

/-- There is no other variable of that name. -/
def Lacks (a : Around) (x : String) : Prop :=
  match a.scopes with
  | [] => x ∉ a.globals ∧ x ∉ a.made
  | _ :: outer => (∀ o ∈ outer, x ∉ o.names) ∧ x ∉ a.globals

instance (a : Around) (x : String) : Decidable (a.Lacks x) := by
  unfold Lacks
  split <;> exact inferInstance

/-- With more names declared. -/
def declaring (names : List String) (a : Around) : Around :=
  match a.scopes with
  | [] => { a with globals := a.globals ++ names }
  | o :: outer => { a with scopes := { o with names := o.names ++ names } :: outer }

/-- In the initial value of a variable. -/
def beginning (name : String) (a : Around) : Around :=
  match a.scopes with
  | [] => { a with making := some name, made := [] }
  | o :: outer => { a with scopes := { names := o.names ++ [name], making := some name } :: outer }

/-- After local variables got initial values. -/
def past (names : List String) (a : Around) : Around := { a with made := a.made ++ names }

/-- In a new scope. -/
def within (names : List String) (a : Around) : Around := { a with scopes := { names } :: a.scopes }

end Around

mutual

/-- The variables of an expression that are declared with an initial value, in the functions in it.
-/
def Expr.made : Expr → List String
  | .literal _ | .name _ | .this _ | .super _ _ => []
  | .grouping e | .assign _ e | .unary _ _ e | .get e _ => e.made
  | .binary left _ _ right | .logical left _ _ right => left.made ++ right.made
  | .call callee _ arguments => callee.made ++ exprMade arguments
  | .set object _ value => value.made ++ object.made
  | .lambda f => f.made

def exprMade : List Expr → List String
  | [] => []
  | e :: es => e.made ++ exprMade es

def exprMade? : Option Expr → List String
  | none => []
  | some e => e.made

/-- The variables of a statement that are declared with an initial value. -/
def Stmt.made : Stmt → List String
  | .expression e | .print e => e.made
  | .var _ _ none => []
  | .var _ name (some e) => e.made ++ [name.lexeme]
  | .block body => stmtMade body
  | .if condition thenBranch elseBranch =>
      condition.made ++ (thenBranch.made ++ stmtMade? elseBranch)
  | .while condition body increment => condition.made ++ (body.made ++ exprMade? increment)
  | .break _ | .continue _ | .importModule _ _ _ => []
  | .return _ value => exprMade? value
  | .function f => f.made
  | .class _ _ methods => functionMade methods

def stmtMade : List Stmt → List String
  | [] => []
  | s :: ss => s.made ++ stmtMade ss

def stmtMade? : Option Stmt → List String
  | none => []
  | some s => s.made

/-- The variables of a function that are declared with an initial value. -/
def FunctionDecl.made : FunctionDecl → List String
  | .mk _ _ body => stmtMade body

def functionMade : List FunctionDecl → List String
  | [] => []
  | f :: fs => f.made ++ functionMade fs

end

mutual

/-- The names that a statement declares in the scope it stands in. An import under a name that is
refused declares none. -/
def Stmt.introduces : Stmt → List String
  | .var _ name _ | .class name _ _ => [name.lexeme]
  | .function f => f.name.toList.map Token.lexeme
  | .importModule _ name as =>
      if (importNameError? (importedModule name) as.isSome).isNone then [importBinding name as] else []
  | .if _ thenBranch elseBranch => thenBranch.introduces ++ stmtIntroduces? elseBranch
  | .while _ body _ => body.introduces
  | .expression _ | .print _ | .block _ | .break _ | .continue _ | .return _ _ => []

def stmtIntroduces? : Option Stmt → List String
  | none => []
  | some s => s.introduces

end

/-- What is declared around the node after a statement. -/
def Around.after (s : Stmt) (a : Around) : Around := (a.declaring s.introduces).past s.made

/-- A read in the initial value of the variable of that name. -/
structure OwnRead where
  use : NameUse
  around : Around

/-- It is reported if there is no other variable. -/
def OwnRead.report? (r : OwnRead) : Option Diagnostic :=
  if r.around.Lacks r.use.name.lexeme then some ⟨.ofToken r.use.name, .ownInitializer⟩ else none

mutual

/-- The reads in an expression that stand in the initial value of the variable of that name. -/
def Expr.ownReads (a : Around) : Expr → List OwnRead
  | .literal _ | .this _ | .super _ _ => []
  | .name use => if a.own? = some use.name.lexeme then [⟨use, a⟩] else []
  | .grouping e | .assign _ e | .unary _ _ e | .get e _ => e.ownReads a
  | .binary left _ _ right | .logical left _ _ right =>
      left.ownReads a ++ right.ownReads (a.past left.made)
  | .call callee _ arguments => callee.ownReads a ++ exprOwnReads (a.past callee.made) arguments
  | .set object _ value => value.ownReads a ++ object.ownReads (a.past value.made)
  | .lambda f => f.ownReads a

def exprOwnReads (a : Around) : List Expr → List OwnRead
  | [] => []
  | e :: es => e.ownReads a ++ exprOwnReads (a.past e.made) es

def exprOwnReads? (a : Around) : Option Expr → List OwnRead
  | none => []
  | some e => e.ownReads a

/-- The reads in a statement. -/
def Stmt.ownReads (a : Around) : Stmt → List OwnRead
  | .expression e | .print e => e.ownReads a
  | .var _ name initial => exprOwnReads? (a.beginning name.lexeme) initial
  | .block body => stmtOwnReads (a.within []) body
  | .if condition thenBranch elseBranch =>
      condition.ownReads a ++ (thenBranch.ownReads (a.past condition.made) ++
        stmtOwnReads? ((a.past condition.made).after thenBranch) elseBranch)
  | .while condition body increment =>
      condition.ownReads a ++ (body.ownReads (a.past condition.made) ++
        exprOwnReads? ((a.past condition.made).after body) increment)
  | .break _ | .continue _ | .importModule _ _ _ => []
  | .return _ value => exprOwnReads? a value
  | .function f => f.ownReads (a.declaring (f.name.toList.map Token.lexeme))
  | .class name none methods =>
      methodOwnReads ((a.declaring [name.lexeme]).within ["this"]) methods
  | .class name (some _) methods =>
      methodOwnReads (((a.declaring [name.lexeme]).within ["super"]).within ["this"]) methods

def stmtOwnReads (a : Around) : List Stmt → List OwnRead
  | [] => []
  | s :: ss => s.ownReads a ++ stmtOwnReads (a.after s) ss

def stmtOwnReads? (a : Around) : Option Stmt → List OwnRead
  | none => []
  | some s => s.ownReads a

/-- The reads in a function. -/
def FunctionDecl.ownReads (a : Around) : FunctionDecl → List OwnRead
  | .mk _ parameters body => stmtOwnReads (a.within (parameters.map Token.lexeme)) body

def methodOwnReads (a : Around) : List FunctionDecl → List OwnRead
  | [] => []
  | f :: fs => f.ownReads a ++ methodOwnReads (a.past f.made) fs

end

/-- The reports of the reads for which there is no other variable. -/
def lacking (rs : List OwnRead) : List Diagnostic := rs.filterMap OwnRead.report?

@[simp] theorem lacking_nil : lacking [] = [] := rfl

@[simp] theorem lacking_append (rs rs' : List OwnRead) :
    lacking (rs ++ rs') = lacking rs ++ lacking rs' := List.filterMap_append

namespace Around
variable {names names' : List String} {a : Around} {x : String}

theorem declaring_global (h : a.scopes = []) :
    a.declaring names = { a with globals := a.globals ++ names } := by
  unfold declaring
  rw [h]

theorem declaring_local {o : OpenScope} {outer : List OpenScope} (h : a.scopes = o :: outer) :
    a.declaring names = { a with scopes := { o with names := o.names ++ names } :: outer } := by
  unfold declaring
  rw [h]

theorem beginning_global (h : a.scopes = []) :
    a.beginning x = { a with making := some x, made := [] } := by
  unfold beginning
  rw [h]

theorem beginning_local {o : OpenScope} {outer : List OpenScope} (h : a.scopes = o :: outer) :
    a.beginning x = { a with scopes := { names := o.names ++ [x], making := some x } :: outer } := by
  unfold beginning
  rw [h]

@[simp] theorem past_nil : a.past [] = a := by simp [past]

@[simp] theorem past_past : (a.past names).past names' = a.past (names ++ names') := by
  simp [past]

@[simp] theorem declaring_nil : a.declaring [] = a := by
  unfold declaring
  split
  · simp
  · next h => simp [← h]

@[simp] theorem declaring_declaring :
    (a.declaring names).declaring names' = a.declaring (names ++ names') := by
  unfold declaring
  cases h : a.scopes <;> simp

@[simp] theorem declaring_past :
    (a.past names).declaring names' = (a.declaring names').past names := by
  unfold declaring past
  cases h : a.scopes <;> simp

@[simp] theorem own?_past : (a.past names).own? = a.own? := rfl

@[simp] theorem own?_declaring : (a.declaring names).own? = a.own? := by
  unfold declaring own?
  cases a.scopes <;> simp

@[simp] theorem own?_after (s : Stmt) : (a.after s).own? = a.own? := by simp [after]

theorem declaring_within : (a.within names).declaring names' = a.within (names ++ names') := rfl

/-- What statements declare and make, one after the other. -/
theorem foldl_after (ss : List Stmt) :
    ss.foldl (fun a s => a.after s) a = (a.declaring (ss.flatMap Stmt.introduces)).past (stmtMade ss) := by
  induction ss generalizing a with
  | nil => simp [stmtMade]
  | cons s ss ih =>
      rw [List.foldl_cons, ih, after, stmtMade, List.flatMap_cons]
      simp

end Around

end Treewalk
