import Mathlib.Data.List.Forall2
import Treewalk.Proofs.Scopes.Position

/-!
# Bare trees

Trees without hops. Two trees with the same bare tree have the same positions: around each stand as
many frames, in which the same names are declared.
-/
namespace Treewalk

/-- A use of a name as it is read. -/
def NameUse.bare (use : NameUse) : NameUse := { use with hops := none }

theorem NameUse.name_of_bare {use use' : NameUse} (h : use.bare = use'.bare) :
    use.name = use'.name := by
  unfold bare at h
  exact (NameUse.mk.inj h).1

theorem NameUse.bare_of_name {use use' : NameUse} (h : use.name = use'.name) :
    use.bare = use'.bare := congrArg (NameUse.mk · none) h

mutual

/-- An expression without hops. -/
def Expr.bare : Expr → Expr
  | .literal value => .literal value
  | .grouping inner => .grouping inner.bare
  | .name use => .name use.bare
  | .assign use value => .assign use.bare value.bare
  | .unary op token operand => .unary op token operand.bare
  | .binary left op token right => .binary left.bare op token right.bare
  | .logical left op token right => .logical left.bare op token right.bare
  | .call callee paren arguments => .call callee.bare paren (bareExprs arguments)
  | .get object name => .get object.bare name
  | .set object name value => .set object.bare name value.bare
  | .this use => .this use.bare
  | .super use method => .super use.bare method
  | .lambda function => .lambda function.bare

def bareExprs : List Expr → List Expr
  | [] => []
  | e :: es => e.bare :: bareExprs es

def bareExpr? : Option Expr → Option Expr
  | none => none
  | some e => some e.bare

/-- A statement without hops. -/
def Stmt.bare : Stmt → Stmt
  | .expression e => .expression e.bare
  | .print e => .print e.bare
  | .var mutability name initial => .var mutability name (bareExpr? initial)
  | .block body => .block (bareStmts body)
  | .if condition thenBranch elseBranch => .if condition.bare thenBranch.bare (bareStmt? elseBranch)
  | .while condition body increment => .while condition.bare body.bare (bareExpr? increment)
  | .break keyword => .break keyword
  | .continue keyword => .continue keyword
  | .return keyword value => .return keyword (bareExpr? value)
  | .function declaration => .function declaration.bare
  | .class name superclass methods => .class name (superclass.map NameUse.bare) (bareFunctions methods)
  | .importModule keyword name as => .importModule keyword name as

def bareStmts : List Stmt → List Stmt
  | [] => []
  | s :: ss => s.bare :: bareStmts ss

def bareStmt? : Option Stmt → Option Stmt
  | none => none
  | some s => some s.bare

/-- A function without hops. -/
def FunctionDecl.bare : FunctionDecl → FunctionDecl
  | .mk name parameters body => .mk name parameters (bareStmts body)

def bareFunctions : List FunctionDecl → List FunctionDecl
  | [] => []
  | f :: fs => f.bare :: bareFunctions fs

end

theorem bareExprs_eq (es : List Expr) : bareExprs es = es.map Expr.bare := by
  induction es with
  | nil => rw [bareExprs, List.map_nil]
  | cons e es ih => rw [bareExprs, List.map_cons, ih]

theorem bareStmts_eq (ss : List Stmt) : bareStmts ss = ss.map Stmt.bare := by
  induction ss with
  | nil => rw [bareStmts, List.map_nil]
  | cons s ss ih => rw [bareStmts, List.map_cons, ih]

theorem bareFunctions_eq (fs : List FunctionDecl) : bareFunctions fs = fs.map FunctionDecl.bare := by
  induction fs with
  | nil => rw [bareFunctions, List.map_nil]
  | cons f fs ih => rw [bareFunctions, List.map_cons, ih]

theorem bareExpr?_eq (o : Option Expr) : bareExpr? o = o.map Expr.bare := by
  cases o with
  | none => rw [bareExpr?, Option.map_none]
  | some e => rw [bareExpr?, Option.map_some]

theorem bareStmt?_eq (o : Option Stmt) : bareStmt? o = o.map Stmt.bare := by
  cases o with
  | none => rw [bareStmt?, Option.map_none]
  | some s => rw [bareStmt?, Option.map_some]

namespace FunctionDecl
variable (f : FunctionDecl)

@[simp] theorem name_bare : f.bare.name = f.name := by
  cases f
  rw [bare]
  rfl

@[simp] theorem parameters_bare : f.bare.parameters = f.parameters := by
  cases f
  rw [bare]
  rfl

@[simp] theorem body_bare : f.bare.body = f.body.map Stmt.bare := by
  cases f
  rw [bare, bareStmts_eq]
  rfl

@[simp] theorem displayName_bare : f.bare.displayName = f.displayName := by
  unfold displayName
  rw [name_bare]

@[simp] theorem bindings_bare : f.bare.bindings = f.bindings := by
  unfold bindings
  rw [parameters_bare]

end FunctionDecl

@[simp] theorem Stmt.declares_bare (s : Stmt) : s.bare.declares = s.declares := by
  cases s with
  | function f => simp only [Stmt.bare, Stmt.declares, FunctionDecl.displayName_bare]
  | _ => simp only [Stmt.bare, Stmt.declares]

/-- Statements with the same bare statements declare the same names. -/
theorem declarations_of_bare {ss ss' : List Stmt} (h : ss.map Stmt.bare = ss'.map Stmt.bare) :
    declarations ss = declarations ss' := by
  have hbare : ∀ ss : List Stmt, declarations (ss.map Stmt.bare) = declarations ss := by
    intro ss
    unfold declarations
    rw [List.flatMap_map]
    exact congrArg (ss.flatMap ·) (funext Stmt.declares_bare)
  rw [← hbare ss, h, hbare ss']

/-- A node without hops. -/
def Node.bare : Node → Node
  | .expr e => .expr e.bare
  | .stmt s => .stmt s.bare
  | .function f => .function f.bare

/-- The parts of a bare node are the bare parts. -/
theorem Node.parts_bare (n : Node) : n.bare.parts = n.parts.map Node.bare := by
  have hexprs : ∀ es : List Expr, (es.map Expr.bare).map Node.expr = (es.map Node.expr).map bare :=
    fun es => by
      rw [List.map_map, List.map_map]
      rfl
  cases n with
  | expr e =>
      cases e with
      | call callee paren arguments =>
          simp only [bare, Expr.bare, parts, Expr.parts, List.map_cons, bareExprs_eq, hexprs]
      | _ => simp only [bare, Expr.bare, parts, Expr.parts, List.map_cons, List.map_nil]
  | stmt s =>
      cases s with
      | «if» condition thenBranch elseBranch =>
          cases elseBranch <;> simp only [bare, Stmt.bare, parts, Stmt.parts, bareStmt?_eq,
            Option.map_none, Option.map_some, Option.toList, List.map_cons, List.map_nil]
      | «while» condition body increment =>
          cases increment <;> simp only [bare, Stmt.bare, parts, Stmt.parts, bareExpr?_eq,
            Option.map_none, Option.map_some, Option.toList, List.map_cons, List.map_nil]
      | «return» keyword value =>
          cases value <;> simp only [bare, Stmt.bare, parts, Stmt.parts, bareExpr?_eq,
            Option.map_none, Option.map_some, Option.toList, List.map_cons, List.map_nil]
      | «class» name superclass methods =>
          cases superclass <;> simp only [bare, Stmt.bare, parts, Stmt.parts, Expr.bare,
            Option.map_none, Option.map_some, List.map_cons, List.map_nil]
      | _ => simp only [bare, Stmt.bare, parts, Stmt.parts, List.map_cons, List.map_nil]
  | function f => rfl

/-! ### What has a given bare tree -/

/-- What is there or not on both sides is related if the lists of it are. -/
theorem optionRel_of_forall₂ {α β : Type} {R : α → β → Prop} {a : Option α} {b : Option β}
    (h : List.Forall₂ R a.toList b.toList) : Option.Rel R a b := by
  cases a with
  | none =>
      cases b with
      | none => exact .none
      | some b => cases h
  | some a =>
      cases b with
      | none => cases h
      | some b =>
          cases h with
          | cons hab _ => exact .some hab

/-- A list that is mapped to the same list has the same parts around an element. -/
theorem exists_split_of_map {α β : Type} {g : α → β} {xs before' after' : List α} {x' : α}
    (h : xs.map g = (before' ++ x' :: after').map g) :
    ∃ before x after, xs = before ++ x :: after ∧ before.map g = before'.map g ∧ g x = g x' := by
  rw [List.map_append, List.map_cons] at h
  obtain ⟨before, rest, rfl, hbefore, hrest⟩ := List.map_eq_append_iff.mp h
  obtain ⟨x, after, rfl, hx, -⟩ := List.map_eq_cons_iff.mp hrest
  exact ⟨before, x, after, rfl, hbefore, hx⟩

theorem exists_mem_of_map {α β : Type} {g : α → β} {xs xs' : List α} {x' : α}
    (h : xs.map g = xs'.map g) (hx : x' ∈ xs') : ∃ x ∈ xs, g x = g x' :=
  List.mem_map.mp (h ▸ List.mem_map_of_mem hx)

namespace Stmt
variable {s : Stmt}

theorem eq_var_of_bare {mutability : Mutability} {name : Token} {e' : Expr}
    (h : s.bare = (Stmt.var mutability name (some e')).bare) :
    ∃ e, s = .var mutability name (some e) ∧ e.bare = e'.bare := by
  cases s with
  | var mutability' name' initial =>
      cases initial with
      | none => simp only [bare, bareExpr?, var.injEq, reduceCtorEq, and_false] at h
      | some e =>
          simp only [bare, bareExpr?, var.injEq, Option.some.injEq] at h
          obtain ⟨rfl, rfl, he⟩ := h
          exact ⟨e, rfl, he⟩
  | _ => simp only [bare, reduceCtorEq] at h

theorem eq_block_of_bare {body' : List Stmt} (h : s.bare = (Stmt.block body').bare) :
    ∃ body, s = .block body ∧ body.map bare = body'.map bare := by
  cases s with
  | block body =>
      simp only [bare, bareStmts_eq, block.injEq] at h
      exact ⟨body, rfl, h⟩
  | _ => simp only [bare, reduceCtorEq] at h

theorem eq_function_of_bare {f' : FunctionDecl} (h : s.bare = (Stmt.function f').bare) :
    ∃ f, s = .function f ∧ f.bare = f'.bare := by
  cases s with
  | function f =>
      simp only [bare, function.injEq] at h
      exact ⟨f, rfl, h⟩
  | _ => simp only [bare, reduceCtorEq] at h

theorem eq_class_of_bare {name : Token} {superclass' : Option NameUse}
    {methods' : List FunctionDecl} (h : s.bare = (Stmt.class name superclass' methods').bare) :
    ∃ superclass methods, s = .class name superclass methods ∧
      superclass.map NameUse.bare = superclass'.map NameUse.bare ∧
      methods.map FunctionDecl.bare = methods'.map FunctionDecl.bare := by
  cases s with
  | «class» name' superclass methods =>
      simp only [bare, bareFunctions_eq, class.injEq] at h
      obtain ⟨rfl, hsuperclass, hmethods⟩ := h
      exact ⟨superclass, methods, rfl, hsuperclass, hmethods⟩
  | _ => simp only [bare, reduceCtorEq] at h

end Stmt

theorem Expr.eq_assign_of_bare {e value' : Expr} {use' : NameUse}
    (h : e.bare = (Expr.assign use' value').bare) :
    ∃ use value, e = .assign use value ∧ use.name = use'.name := by
  cases e with
  | assign use value =>
      simp only [bare, assign.injEq] at h
      exact ⟨use, value, rfl, NameUse.name_of_bare h.1⟩
  | _ => simp only [bare, reduceCtorEq] at h

namespace Node
variable {n : Node}

theorem eq_expr_of_bare {e' : Expr} (h : n.bare = (Node.expr e').bare) :
    ∃ e, n = .expr e ∧ e.bare = e'.bare := by
  cases n with
  | expr e => exact ⟨e, rfl, Node.expr.inj h⟩
  | _ => cases h

theorem eq_stmt_of_bare {s' : Stmt} (h : n.bare = (Node.stmt s').bare) :
    ∃ s, n = .stmt s ∧ s.bare = s'.bare := by
  cases n with
  | stmt s => exact ⟨s, rfl, Node.stmt.inj h⟩
  | _ => cases h

theorem eq_function_of_bare {f' : FunctionDecl} (h : n.bare = (Node.function f').bare) :
    ∃ f, n = .function f ∧ f.bare = f'.bare := by
  cases n with
  | function f => exact ⟨f, rfl, Node.function.inj h⟩
  | _ => cases h

end Node

/-! ### Positions -/

/-- The same names are declared in two frames. -/
structure Frame.Alike (f f' : Frame) : Prop where
  bound : f.bound = f'.bound
  pending : f.pending = f'.pending

/-- The same bare node among frames in which the same names are declared. -/
structure Position.Alike (q q' : Position) : Prop where
  frames : List.Forall₂ Frame.Alike q.frames q'.frames
  node : q.node.bare = q'.node.bare

section
variable {frames frames' : List Frame}

/-- A name that some frame knows is known among the other frames. -/
theorem alike_knows (h : List.Forall₂ Frame.Alike frames frames') {f : Frame} {name : String}
    (hf : f ∈ frames) (hknows : f.Knows name) : ∃ f' ∈ frames', f'.Knows name := by
  induction h with
  | nil => cases hf
  | @cons f₁ f₂ _ _ hfirst _ ih =>
      rcases List.mem_cons.mp hf with rfl | hf
      · refine ⟨f₂, List.mem_cons_self .., ?_⟩
        unfold Frame.Knows Frame.names at hknows ⊢
        rw [← hfirst.bound, ← hfirst.pending]
        exact hknows
      · obtain ⟨f', hf', hknows'⟩ := ih hf
        exact ⟨f', List.mem_cons_of_mem _ hf', hknows'⟩

theorem alike_declaring (h : List.Forall₂ Frame.Alike frames frames')
    (ds : List (String × Mutability)) :
    List.Forall₂ Frame.Alike (declaring ds frames) (declaring ds frames') := by
  cases h with
  | nil => exact .nil
  | cons hf hrest => exact .cons ⟨congrArg (· ++ ds) hf.bound, hf.pending⟩ hrest

theorem alike_beginning (h : List.Forall₂ Frame.Alike frames frames') (name : String) :
    List.Forall₂ Frame.Alike (beginning name frames) (beginning name frames') := by
  cases h with
  | nil => exact .nil
  | cons hf hrest => exact .cons ⟨hf.bound, rfl⟩ hrest

end

/-- Steps inward correspond. -/
theorem Inner.alike {p p' q' : Position} (h : Inner p' q') (hp : p.Alike p') :
    ∃ q, Inner p q ∧ q.Alike q' := by
  obtain ⟨frames, n⟩ := p
  obtain ⟨hframes, hn⟩ := hp
  cases h with
  | @part _ n' m' hm =>
      have hparts : n.parts.map Node.bare = n'.parts.map Node.bare := by
        rw [← Node.parts_bare, ← Node.parts_bare]
        exact congrArg Node.parts hn
      obtain ⟨m, hm, hbare⟩ := exists_mem_of_map hparts hm
      exact ⟨_, .part hm, hframes, hbare⟩
  | initial =>
      obtain ⟨s, rfl, hs⟩ := Node.eq_stmt_of_bare hn
      obtain ⟨e, rfl, he⟩ := Stmt.eq_var_of_bare hs
      exact ⟨_, .initial, alike_beginning hframes _, congrArg Node.expr he⟩
  | block =>
      obtain ⟨s, rfl, hs⟩ := Node.eq_stmt_of_bare hn
      obtain ⟨body, rfl, hbody⟩ := Stmt.eq_block_of_bare hs
      obtain ⟨before, st, after, rfl, hbefore, hst⟩ := exists_split_of_map hbody
      refine ⟨_, .block, .cons ⟨declarations_of_bare hbefore, rfl⟩ hframes, congrArg Node.stmt hst⟩
  | @declared _ f' =>
      obtain ⟨s, rfl, hs⟩ := Node.eq_stmt_of_bare hn
      obtain ⟨f, rfl, hf⟩ := Stmt.eq_function_of_bare hs
      have hdeclares : (Stmt.function f).declares = (Stmt.function f').declares := by
        rw [← Stmt.declares_bare, hs, Stmt.declares_bare]
      refine ⟨_, .declared, ?_, congrArg Node.function hf⟩
      rw [hdeclares]
      exact alike_declaring hframes _
  | @body _ f' before' after' st' hbody =>
      obtain ⟨f, rfl, hf⟩ := Node.eq_function_of_bare hn
      have hmap : f.body.map Stmt.bare = f'.body.map Stmt.bare := by
        rw [← f.body_bare, hf, f'.body_bare]
      rw [hbody] at hmap
      obtain ⟨before, st, after, hsplit, hbefore, hst⟩ := exists_split_of_map hmap
      have hbindings : f.bindings = f'.bindings := by
        rw [← f.bindings_bare, hf, f'.bindings_bare]
      refine ⟨_, .body hsplit, .cons ⟨?_, rfl⟩ hframes, congrArg Node.stmt hst⟩
      rw [hbindings, declarations_of_bare hbefore]
  | @method _ name methods' f' hf' =>
      obtain ⟨s, rfl, hs⟩ := Node.eq_stmt_of_bare hn
      obtain ⟨superclass, methods, rfl, hnone, hmethods⟩ := Stmt.eq_class_of_bare hs
      obtain rfl := Option.map_eq_none_iff.mp hnone
      obtain ⟨f, hf, hbare⟩ := exists_mem_of_map hmethods hf'
      exact ⟨_, .method hf, .cons ⟨rfl, rfl⟩ (alike_declaring hframes _), congrArg Node.function hbare⟩
  | @inherited _ name use' methods' f' hf' =>
      obtain ⟨s, rfl, hs⟩ := Node.eq_stmt_of_bare hn
      obtain ⟨superclass, methods, rfl, hsome, hmethods⟩ := Stmt.eq_class_of_bare hs
      obtain ⟨use, rfl, -⟩ := Option.map_eq_some_iff.mp hsome
      obtain ⟨f, hf, hbare⟩ := exists_mem_of_map hmethods hf'
      exact ⟨_, .inherited hf, .cons ⟨rfl, rfl⟩ (.cons ⟨rfl, rfl⟩ (alike_declaring hframes _)),
        congrArg Node.function hbare⟩

/-- Positions within correspond. -/
theorem Within.alike {p p' q' : Position} (h : Within p' q') (hp : p.Alike p') :
    ∃ q, Within p q ∧ q.Alike q' := by
  induction h with
  | refl => exact ⟨p, .refl, hp⟩
  | tail _ hstep ih =>
      obtain ⟨q, hq, halike⟩ := ih
      obtain ⟨r, hr, halike'⟩ := hstep.alike halike
      exact ⟨r, hq.tail hr, halike'⟩

end Treewalk
