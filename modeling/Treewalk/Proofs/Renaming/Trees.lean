import Treewalk.Proofs.Scopes.Bare
import Treewalk.Token
import Treewalk.Bindings

/-!
# Renaming locals

A local can have another name. In a resolved tree this takes the place of the old one where the
local is declared and in the uses that are bound to it: those whose hops lead to the scope of the
local. Scopes in which the old name is renamed are marked; the new name does not stand in them
before.
-/
namespace Treewalk

/-- An identifier and another one that takes its place. -/
structure Renaming where
  old : String
  new : String
  distinct : new ≠ old
  oldWord : TokenKind.ofWord old = .identifier
  newWord : TokenKind.ofWord new = .identifier

namespace Renaming

/-- A scope around a piece of a tree. -/
structure Mark where
  /-- The old name is renamed in the scope. -/
  renamed : Bool
  /-- The piece stands in the initial value of a local of the old name. -/
  pending : Bool := false

/-- What is around a piece of a tree. -/
structure Context where
  /-- The scopes, innermost first. -/
  marks : List Mark := []
  /-- The globals in whose initial values the piece stands. -/
  initializing : List String := []

/-- The old name is renamed in some scope. -/
def Marked (marks : List Mark) : Prop := ∃ mark ∈ marks, mark.renamed = true

/-- Whether it is in the scope to which hops lead. -/
def renames (marks : List Mark) : Option Nat → Bool
  | some hops => marks[hops]?.any Mark.renamed
  | none => false

variable (ρ : Renaming)

/-- What becomes of a name of a scope. -/
def name (renamed : Bool) (s : String) : String := if renamed = true ∧ s = ρ.old then ρ.new else s

def token (renamed : Bool) (t : Token) : Token := { t with lexeme := ρ.name renamed t.lexeme }

namespace Context
variable (Γ : Context)

/-- Whether the old name is renamed in the innermost scope. -/
def here : Bool := renames Γ.marks (some 0)

/-- In a scope more. -/
def enter (renamed : Bool) : Context := { Γ with marks := ⟨renamed, false⟩ :: Γ.marks }

/-- While a name is declared. -/
def begun (name : String) : Context :=
  match Γ.marks with
  | [] => Γ
  | mark :: outer =>
      { Γ with marks := { mark with pending := mark.pending || name == ρ.old } :: outer }

/-- In the initial value of a name. -/
def initial (name : String) : Context :=
  match Γ.marks with
  | [] => { Γ with initializing := name :: Γ.initializing }
  | _ :: _ => Γ.begun ρ name

/-- A scope may be marked, but not in the initial value of a global of one of the two names. -/
def Admits (renamed : Bool) : Prop :=
  renamed = true → ρ.old ∉ Γ.initializing ∧ ρ.new ∉ Γ.initializing

/-- Inside a marked scope the new name is used for nothing else. -/
def Fresh (s : String) : Prop := Marked Γ.marks → s ≠ ρ.new

/-- What is declared under a name that stays. -/
def Keeps (s : String) : Prop := Γ.Fresh ρ s ∧ (Γ.here = true → s ≠ ρ.old)

/-- A property of the old name may be set, but not where the initial value of this name is made in
the same scope, if it is renamed there or is what is bound to the use. -/
def Settable (object : Expr) : Prop :=
  ∀ use, object = .name use → use.name.lexeme = ρ.old → (Γ.marks.head?.any Mark.pending) = true →
    Γ.here = false ∧ renames Γ.marks use.hops = false

end Context

/-- What becomes of a use. -/
def use (Γ : Context) (u : NameUse) : NameUse :=
  { u with name := ρ.token (renames Γ.marks u.hops) u.name }

end Renaming

open Renaming (Context)

mutual

/-- The second expression is the first one with the old name renamed in some scopes. -/
inductive Expr.Renamed (ρ : Renaming) : Context → Expr → Expr → Prop
  | literal {Γ : Context} (value : Literal) : Expr.Renamed ρ Γ (.literal value) (.literal value)
  | grouping {Γ : Context} {e e' : Expr} : Expr.Renamed ρ Γ e e' →
      Expr.Renamed ρ Γ (.grouping e) (.grouping e')
  | name {Γ : Context} {use : NameUse} : Γ.Fresh ρ use.name.lexeme →
      Expr.Renamed ρ Γ (.name use) (.name (ρ.use Γ use))
  | assign {Γ : Context} {use : NameUse} {e e' : Expr} : Γ.Fresh ρ use.name.lexeme →
      Expr.Renamed ρ Γ e e' → Expr.Renamed ρ Γ (.assign use e) (.assign (ρ.use Γ use) e')
  | unary {Γ : Context} {op : UnaryOp} {token : Token} {e e' : Expr} : Expr.Renamed ρ Γ e e' →
      Expr.Renamed ρ Γ (.unary op token e) (.unary op token e')
  | binary {Γ : Context} {a a' b b' : Expr} {op : BinaryOp} {token : Token} :
      Expr.Renamed ρ Γ a a' → Expr.Renamed ρ Γ b b' →
      Expr.Renamed ρ Γ (.binary a op token b) (.binary a' op token b')
  | logical {Γ : Context} {a a' b b' : Expr} {op : LogicalOp} {token : Token} :
      Expr.Renamed ρ Γ a a' → Expr.Renamed ρ Γ b b' →
      Expr.Renamed ρ Γ (.logical a op token b) (.logical a' op token b')
  | call {Γ : Context} {callee callee' : Expr} {paren : Token} {es es' : List Expr} :
      Expr.Renamed ρ Γ callee callee' → ExprsRenamed ρ Γ es es' →
      Expr.Renamed ρ Γ (.call callee paren es) (.call callee' paren es')
  | get {Γ : Context} {e e' : Expr} {name : Token} : Expr.Renamed ρ Γ e e' →
      Expr.Renamed ρ Γ (.get e name) (.get e' name)
  | set {Γ : Context} {a a' b b' : Expr} {name : Token} : Γ.Settable ρ a →
      Expr.Renamed ρ Γ a a' → Expr.Renamed ρ Γ b b' →
      Expr.Renamed ρ Γ (.set a name b) (.set a' name b')
  | this {Γ : Context} {use : NameUse} : Γ.Fresh ρ use.name.lexeme →
      Expr.Renamed ρ Γ (.this use) (.this (ρ.use Γ use))
  | super {Γ : Context} {use : NameUse} {method : Token} : Γ.Fresh ρ use.name.lexeme →
      Expr.Renamed ρ Γ (.super use method) (.super (ρ.use Γ use) method)
  | lambda {Γ : Context} {d d' : FunctionDecl} : FunctionDecl.Renamed ρ Γ d d' →
      Expr.Renamed ρ Γ (.lambda d) (.lambda d')

inductive ExprsRenamed (ρ : Renaming) : Context → List Expr → List Expr → Prop
  | nil {Γ : Context} : ExprsRenamed ρ Γ [] []
  | cons {Γ : Context} {e e' : Expr} {es es' : List Expr} : Expr.Renamed ρ Γ e e' →
      ExprsRenamed ρ Γ es es' → ExprsRenamed ρ Γ (e :: es) (e' :: es')

/-- Functions, classes and modules keep their names: what they are called can be seen. -/
inductive Stmt.Renamed (ρ : Renaming) : Context → Stmt → Stmt → Prop
  | expression {Γ : Context} {e e' : Expr} : Expr.Renamed ρ Γ e e' →
      Stmt.Renamed ρ Γ (.expression e) (.expression e')
  | print {Γ : Context} {e e' : Expr} : Expr.Renamed ρ Γ e e' →
      Stmt.Renamed ρ Γ (.print e) (.print e')
  | var {Γ : Context} {mutability : Mutability} {name : Token} {e e' : Option Expr} :
      Γ.Fresh ρ name.lexeme → ExprsRenamed ρ (Γ.initial ρ name.lexeme) e.toList e'.toList →
      Stmt.Renamed ρ Γ (.var mutability name e)
        (.var mutability (ρ.token Γ.here name) e')
  | block {Γ : Context} (renamed : Bool) {ss ss' : List Stmt} : Γ.Admits ρ renamed →
      StmtsRenamed ρ (Γ.enter renamed) ss ss' → Stmt.Renamed ρ Γ (.block ss) (.block ss')
  | if {Γ : Context} {c c' : Expr} {s s' : Stmt} {t t' : Option Stmt} : Expr.Renamed ρ Γ c c' →
      Stmt.Renamed ρ Γ s s' → StmtsRenamed ρ Γ t.toList t'.toList →
      Stmt.Renamed ρ Γ (.if c s t) (.if c' s' t')
  | while {Γ : Context} {c c' : Expr} {s s' : Stmt} {e e' : Option Expr} : Expr.Renamed ρ Γ c c' →
      Stmt.Renamed ρ Γ s s' → ExprsRenamed ρ Γ e.toList e'.toList →
      Stmt.Renamed ρ Γ (.while c s e) (.while c' s' e')
  | break {Γ : Context} (keyword : Token) : Stmt.Renamed ρ Γ (.break keyword) (.break keyword)
  | continue {Γ : Context} (keyword : Token) :
      Stmt.Renamed ρ Γ (.continue keyword) (.continue keyword)
  | return {Γ : Context} {keyword : Token} {e e' : Option Expr} :
      ExprsRenamed ρ Γ e.toList e'.toList →
      Stmt.Renamed ρ Γ (.return keyword e) (.return keyword e')
  | function {Γ : Context} {d d' : FunctionDecl} : Γ.Keeps ρ d.displayName →
      FunctionDecl.Renamed ρ Γ d d' → Stmt.Renamed ρ Γ (.function d) (.function d')
  | root {Γ : Context} {name : Token} {ds ds' : List FunctionDecl} : Γ.Keeps ρ name.lexeme →
      FunctionsRenamed ρ (Γ.enter false) ds ds' →
      Stmt.Renamed ρ Γ (.class name none ds) (.class name none ds')
  | derived {Γ : Context} {name : Token} {use : NameUse} {ds ds' : List FunctionDecl} :
      Γ.Keeps ρ name.lexeme → Γ.Fresh ρ use.name.lexeme →
      FunctionsRenamed ρ ((Γ.enter false).enter false) ds ds' →
      Stmt.Renamed ρ Γ (.class name (some use) ds) (.class name (some (ρ.use Γ use)) ds')
  | importModule {Γ : Context} {keyword name : Token} {as : Option Token} :
      Γ.Keeps ρ (importBinding name as) →
      Stmt.Renamed ρ Γ (.importModule keyword name as) (.importModule keyword name as)

inductive StmtsRenamed (ρ : Renaming) : Context → List Stmt → List Stmt → Prop
  | nil {Γ : Context} : StmtsRenamed ρ Γ [] []
  | cons {Γ : Context} {s s' : Stmt} {ss ss' : List Stmt} : Stmt.Renamed ρ Γ s s' →
      StmtsRenamed ρ Γ ss ss' → StmtsRenamed ρ Γ (s :: ss) (s' :: ss')

inductive FunctionDecl.Renamed (ρ : Renaming) : Context → FunctionDecl → FunctionDecl → Prop
  | mk {Γ : Context} (renamed : Bool) {name : Option Token} {parameters : List Token}
      {ss ss' : List Stmt} : Γ.Admits ρ renamed →
      (∀ p ∈ parameters, (Γ.enter renamed).Fresh ρ p.lexeme) →
      StmtsRenamed ρ (Γ.enter renamed) ss ss' →
      FunctionDecl.Renamed ρ Γ (.mk name parameters ss)
        (.mk name (parameters.map (ρ.token renamed)) ss')

inductive FunctionsRenamed (ρ : Renaming) : Context → List FunctionDecl → List FunctionDecl → Prop
  | nil {Γ : Context} : FunctionsRenamed ρ Γ [] []
  | cons {Γ : Context} {d d' : FunctionDecl} {ds ds' : List FunctionDecl} :
      FunctionDecl.Renamed ρ Γ d d' → FunctionsRenamed ρ Γ ds ds' →
      FunctionsRenamed ρ Γ (d :: ds) (d' :: ds')

end

namespace Renaming
variable {ρ : Renaming} {α : Type}

@[simp] theorem name_false (s : String) : ρ.name false s = s := by simp [name]

@[simp] theorem token_false (t : Token) : ρ.token false t = t := by simp [token]

@[simp] theorem lexeme_token (renamed : Bool) (t : Token) :
    (ρ.token renamed t).lexeme = ρ.name renamed t.lexeme := rfl

@[simp] theorem hops_use (Γ : Context) (u : NameUse) : (ρ.use Γ u).hops = u.hops := rfl

@[simp] theorem lexeme_use (Γ : Context) (u : NameUse) :
    (ρ.use Γ u).name.lexeme = ρ.name (renames Γ.marks u.hops) u.name.lexeme := rfl

/-- The use of a global stays as it is. -/
theorem use_of_global (Γ : Context) {u : NameUse} (h : u.hops = none) : ρ.use Γ u = u := by
  obtain ⟨name, _⟩ := u
  cases h
  exact congrArg (NameUse.mk · none) (token_false name)

theorem name_old : ρ.name true ρ.old = ρ.new := by simp [name]

theorem name_of_ne {s : String} (h : s ≠ ρ.old) (renamed : Bool) : ρ.name renamed s = s := by
  simp [name, h]

theorem name_ne_old (s : String) : ρ.name true s ≠ ρ.old := by
  by_cases h : s = ρ.old
  · rw [h, name_old]
    exact ρ.distinct
  · rwa [name_of_ne h]

/-- Names other than the new one are told apart after renaming. -/
theorem name_inj {renamed : Bool} {s t : String} (hs : renamed = true → s ≠ ρ.new)
    (ht : renamed = true → t ≠ ρ.new) : ρ.name renamed s = ρ.name renamed t ↔ s = t := by
  cases renamed with
  | false => simp
  | true =>
      simp only [name, true_and]
      have hs := hs rfl
      have ht := ht rfl
      by_cases h : s = ρ.old <;> by_cases h' : t = ρ.old
      · simp [h, h']
      · simp only [h, h', if_true, if_false]
        exact iff_of_false (Ne.symm ht) (Ne.symm h')
      · simp only [h, h', if_true, if_false]
        exact iff_of_false hs id
      · simp [h, h']

theorem marked_of_renames {marks : List Mark} {hops : Option Nat}
    (h : renames marks hops = true) : Marked marks := by
  cases hops with
  | none => cases h
  | some hops =>
      cases hmark : marks[hops]? with
      | none => simp only [renames, hmark, Option.any_none, Bool.false_eq_true] at h
      | some mark =>
          simp only [renames, hmark, Option.any_some] at h
          exact ⟨mark, List.mem_of_getElem? hmark, h⟩

/-- Words of the language are no identifiers. -/
theorem ne_of_word {s : String} (h : TokenKind.ofWord s ≠ .identifier) : s ≠ ρ.old ∧ s ≠ ρ.new := by
  constructor <;> rintro rfl
  · exact h ρ.oldWord
  · exact h ρ.newWord

/-- The names of a scope with what they stand for, with the old one renamed in it. -/
def Binds (ρ : Renaming) (renamed : Bool) (b b' : Bindings α) : Prop :=
  ∀ s, (renamed = true → s ≠ ρ.new) → b'.find? (ρ.name renamed s) = b.find? s

theorem Binds.insert {renamed : Bool} {b b' : Bindings α} (h : ρ.Binds renamed b b') {s : String}
    (hs : renamed = true → s ≠ ρ.new) (a : α) :
    ρ.Binds renamed (b.insert s a) (b'.insert (ρ.name renamed s) a) := by
  intro t ht
  rw [Bindings.find?_insert, Bindings.find?_insert, h t ht]
  simp only [name_inj hs ht]

theorem Binds.contains {renamed : Bool} {b b' : Bindings α} (h : ρ.Binds renamed b b') {s : String}
    (hs : renamed = true → s ≠ ρ.new) : b'.contains (ρ.name renamed s) = b.contains s := by
  unfold Bindings.contains
  rw [h s hs]

end Renaming

namespace FunctionDecl.Renamed
variable {ρ : Renaming} {Γ : Context} {d d' : FunctionDecl}

theorem name (h : d.Renamed ρ Γ d') : d'.name = d.name := by
  cases h
  rfl

theorem displayName (h : d.Renamed ρ Γ d') : d'.displayName = d.displayName := by
  unfold FunctionDecl.displayName
  rw [h.name]

theorem length (h : d.Renamed ρ Γ d') : d'.parameters.length = d.parameters.length := by
  cases h
  exact List.length_map _

end FunctionDecl.Renamed

section
variable {ρ : Renaming} {Γ : Context}

theorem ExprsRenamed.forall₂ {es es' : List Expr} (h : ExprsRenamed ρ Γ es es') :
    List.Forall₂ (Expr.Renamed ρ Γ) es es' := by
  induction es generalizing es' with
  | nil =>
      cases h
      exact .nil
  | cons e es ih =>
      cases h with
      | cons he hes => exact .cons he (ih hes)

theorem ExprsRenamed.option {e e' : Option Expr} (h : ExprsRenamed ρ Γ e.toList e'.toList) :
    Option.Rel (Expr.Renamed ρ Γ) e e' := optionRel_of_forall₂ h.forall₂

theorem StmtsRenamed.forall₂ {ss ss' : List Stmt} (h : StmtsRenamed ρ Γ ss ss') :
    List.Forall₂ (Stmt.Renamed ρ Γ) ss ss' := by
  induction ss generalizing ss' with
  | nil =>
      cases h
      exact .nil
  | cons s ss ih =>
      cases h with
      | cons hs hss => exact .cons hs (ih hss)

theorem StmtsRenamed.option {s s' : Option Stmt} (h : StmtsRenamed ρ Γ s.toList s'.toList) :
    Option.Rel (Stmt.Renamed ρ Γ) s s' := optionRel_of_forall₂ h.forall₂

theorem FunctionsRenamed.forall₂ {ds ds' : List FunctionDecl} (h : FunctionsRenamed ρ Γ ds ds') :
    List.Forall₂ (FunctionDecl.Renamed ρ Γ) ds ds' := by
  induction ds generalizing ds' with
  | nil =>
      cases h
      exact .nil
  | cons d ds ih =>
      cases h with
      | cons hd hds => exact .cons hd (ih hds)

end

/-! ### Nothing renamed -/

/-- No scope is marked. -/
def Renaming.Context.Plain (Γ : Context) : Prop := ∀ mark ∈ Γ.marks, mark.renamed = false

theorem Renaming.Context.plain_start : Plain {} := List.forall_mem_nil _

namespace Renaming.Context.Plain
variable {ρ : Renaming} {Γ : Context} (h : Γ.Plain)
include h

theorem renames (hops : Option Nat) : Renaming.renames Γ.marks hops = false := by
  by_contra hrenames
  obtain ⟨mark, hmark, hrenamed⟩ := marked_of_renames (Bool.not_eq_false _ ▸ hrenames)
  rw [h mark hmark] at hrenamed
  cases hrenamed

theorem use (u : NameUse) : ρ.use Γ u = u := by
  unfold Renaming.use
  rw [h.renames, token_false]

theorem enter : (Γ.enter false).Plain := List.forall_mem_cons.mpr ⟨rfl, h⟩

theorem initial (name : String) : (Γ.initial ρ name).Plain := by
  obtain ⟨_ | ⟨mark, outer⟩, initializing⟩ := Γ
  · exact h
  · exact List.forall_mem_cons.mpr (List.forall_mem_cons.mp h)

theorem fresh (s : String) : Γ.Fresh ρ s := by
  rintro ⟨mark, hmark, hrenamed⟩
  rw [h mark hmark] at hrenamed
  cases hrenamed

theorem keeps (s : String) : Γ.Keeps ρ s :=
  ⟨h.fresh s, fun hrenamed => by
    rw [Context.here, h.renames] at hrenamed
    cases hrenamed⟩

theorem settable (object : Expr) : Γ.Settable ρ object := fun _ _ _ _ => ⟨h.renames _, h.renames _⟩

end Renaming.Context.Plain

theorem Renaming.Context.admits_false {ρ : Renaming} (Γ : Context) : Γ.Admits ρ false := nofun

mutual

variable {ρ : Renaming}

/-- Where no scope is marked, a tree stays as it is. -/
theorem Expr.renamed_self {Γ : Context} (h : Γ.Plain) : (e : Expr) → e.Renamed ρ Γ e
  | .literal value => .literal value
  | .grouping inner => .grouping (inner.renamed_self h)
  | .name use => by
      have hname : Expr.Renamed ρ Γ (.name use) (.name (ρ.use Γ use)) := .name (h.fresh _)
      rwa [h.use] at hname
  | .assign use value => by
      have hassign : Expr.Renamed ρ Γ (.assign use value) (.assign (ρ.use Γ use) value) :=
        .assign (h.fresh _) (value.renamed_self h)
      rwa [h.use] at hassign
  | .unary _ _ operand => .unary (operand.renamed_self h)
  | .binary left _ _ right => .binary (left.renamed_self h) (right.renamed_self h)
  | .logical left _ _ right => .logical (left.renamed_self h) (right.renamed_self h)
  | .call callee _ arguments => .call (callee.renamed_self h) (exprs_renamed_self h arguments)
  | .get object _ => .get (object.renamed_self h)
  | .set object _ value =>
      .set (h.settable object) (object.renamed_self h) (value.renamed_self h)
  | .this use => by
      have hthis : Expr.Renamed ρ Γ (.this use) (.this (ρ.use Γ use)) := .this (h.fresh _)
      rwa [h.use] at hthis
  | .super use method => by
      have hsuper : Expr.Renamed ρ Γ (.super use method) (.super (ρ.use Γ use) method) :=
        .super (h.fresh _)
      rwa [h.use] at hsuper
  | .lambda function => .lambda (function.renamed_self h)

theorem exprs_renamed_self {Γ : Context} (h : Γ.Plain) : (es : List Expr) → ExprsRenamed ρ Γ es es
  | [] => .nil
  | e :: es => .cons (e.renamed_self h) (exprs_renamed_self h es)

theorem expr?_renamed_self {Γ : Context} (h : Γ.Plain) :
    (e : Option Expr) → ExprsRenamed ρ Γ e.toList e.toList
  | none => .nil
  | some e => .cons (e.renamed_self h) .nil

theorem Stmt.renamed_self {Γ : Context} (h : Γ.Plain) : (s : Stmt) → s.Renamed ρ Γ s
  | .expression e => .expression (e.renamed_self h)
  | .print e => .print (e.renamed_self h)
  | .var mutability name initial => by
      have hvar : Stmt.Renamed ρ Γ (.var mutability name initial)
          (.var mutability (ρ.token Γ.here name) initial) :=
        .var (h.fresh _) (expr?_renamed_self (h.initial name.lexeme) initial)
      rwa [Context.here, h.renames, Renaming.token_false] at hvar
  | .block body => .block false (Context.admits_false Γ) (stmts_renamed_self h.enter body)
  | .if condition thenBranch elseBranch =>
      .if (condition.renamed_self h) (thenBranch.renamed_self h) (stmt?_renamed_self h elseBranch)
  | .while condition body increment =>
      .while (condition.renamed_self h) (body.renamed_self h) (expr?_renamed_self h increment)
  | .break keyword => .break keyword
  | .continue keyword => .continue keyword
  | .return _ value => .return (expr?_renamed_self h value)
  | .function declaration => .function (h.keeps _) (declaration.renamed_self h)
  | .class _ none methods => .root (h.keeps _) (functions_renamed_self h.enter methods)
  | .class name (some use) methods => by
      have hderived : Stmt.Renamed ρ Γ (.class name (some use) methods)
          (.class name (some (ρ.use Γ use)) methods) :=
        .derived (h.keeps _) (h.fresh _) (functions_renamed_self h.enter.enter methods)
      rwa [h.use] at hderived
  | .importModule _ _ _ => .importModule (h.keeps _)

theorem stmts_renamed_self {Γ : Context} (h : Γ.Plain) : (ss : List Stmt) → StmtsRenamed ρ Γ ss ss
  | [] => .nil
  | s :: ss => .cons (s.renamed_self h) (stmts_renamed_self h ss)

theorem stmt?_renamed_self {Γ : Context} (h : Γ.Plain) :
    (s : Option Stmt) → StmtsRenamed ρ Γ s.toList s.toList
  | none => .nil
  | some s => .cons (s.renamed_self h) .nil

theorem FunctionDecl.renamed_self {Γ : Context} (h : Γ.Plain) :
    (d : FunctionDecl) → d.Renamed ρ Γ d
  | .mk name parameters body => by
      have hmk : FunctionDecl.Renamed ρ Γ (.mk name parameters body)
          (.mk name (parameters.map (ρ.token false)) body) :=
        .mk false (Context.admits_false Γ) (fun p _ => h.enter.fresh p.lexeme)
          (stmts_renamed_self h.enter body)
      have hparameters : parameters.map (ρ.token false) = parameters :=
        List.map_id'' (fun t => Renaming.token_false t) parameters
      rwa [hparameters] at hmk

theorem functions_renamed_self {Γ : Context} (h : Γ.Plain) :
    (ds : List FunctionDecl) → FunctionsRenamed ρ Γ ds ds
  | [] => .nil
  | d :: ds => .cons (d.renamed_self h) (functions_renamed_self h ds)

end
end Treewalk
