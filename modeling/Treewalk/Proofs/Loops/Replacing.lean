import Treewalk.Proofs.Loops.WrittenOut
import Treewalk.Proofs.Control.Lawful

/-!
# Loops replaced by hand

A `for` loop may stand anywhere in a program: in blocks, branches and other loops, in functions,
methods and lambdas. Replaced by a `while` loop that does the same, it gives a program with that loop
written out.
-/
namespace Treewalk

/-! ### Trees as they are read -/

namespace Node
variable {inLoop inFunction : Bool}

/-- Whether a node can stand somewhere does not depend on its hops. -/
theorem Legal.of_bare {n n' : Node} (h : Legal inLoop inFunction n) (hbare : n'.bare = n.bare) :
    Legal inLoop inFunction n' := by
  have hoptional : ∀ {o o' : Option Expr} {l f : Bool}, bareExpr? o' = bareExpr? o →
      (∀ e ∈ o, ∀ {n' : Node}, n'.bare = (Node.expr e).bare → Legal l f n') →
      ∀ e ∈ o', Legal l f (.expr e) := by
    intro o o' l f ho hall e he
    rw [bareExpr?_eq, bareExpr?_eq] at ho
    cases he
    cases o with
    | none => cases ho
    | some e' => exact hall e' rfl (congrArg Node.expr (Option.some.inj ho))
  induction h generalizing n' with
  | expr _ ih =>
      obtain ⟨e', rfl, -⟩ := eq_expr_of_bare hbare
      refine .expr fun m hm => ?_
      have hparts := congrArg Node.parts hbare
      rw [parts_bare, parts_bare] at hparts
      obtain ⟨m', hm', hb⟩ := exists_mem_of_map hparts.symm hm
      exact ih m' hm' hb.symm
  | expression _ ih =>
      obtain ⟨s', rfl, hs⟩ := eq_stmt_of_bare hbare
      cases s' <;> simp only [Stmt.bare, reduceCtorEq, Stmt.expression.injEq] at hs
      exact .expression (ih (congrArg Node.expr hs))
  | print _ ih =>
      obtain ⟨s', rfl, hs⟩ := eq_stmt_of_bare hbare
      cases s' <;> simp only [Stmt.bare, reduceCtorEq, Stmt.print.injEq] at hs
      exact .print (ih (congrArg Node.expr hs))
  | var _ ih =>
      obtain ⟨s', rfl, hs⟩ := eq_stmt_of_bare hbare
      cases s' <;> simp only [Stmt.bare, reduceCtorEq, Stmt.var.injEq] at hs
      exact .var (hoptional hs.2.2 fun e he _ => ih e he)
  | block _ ih =>
      obtain ⟨s', rfl, hs⟩ := eq_stmt_of_bare hbare
      obtain ⟨body, rfl, hbody⟩ := Stmt.eq_block_of_bare hs
      refine .block fun s hs => ?_
      obtain ⟨t, ht, hb⟩ := exists_mem_of_map hbody.symm hs
      exact ih t ht (congrArg Node.stmt hb.symm)
  | @«if» _ _ condition thenBranch elseBranch _ _ _ ihc iht ihe =>
      obtain ⟨s', rfl, hs⟩ := eq_stmt_of_bare hbare
      cases s' <;> simp only [Stmt.bare, reduceCtorEq, Stmt.if.injEq] at hs
      rename_i elseBranch'
      refine .if (ihc (congrArg Node.expr hs.1)) (iht (congrArg Node.stmt hs.2.1)) fun s hs' => ?_
      have helse := hs.2.2
      rw [bareStmt?_eq, bareStmt?_eq] at helse
      cases hs'
      cases elseBranch with
      | none => cases helse
      | some t => exact ihe t rfl (congrArg Node.stmt (Option.some.inj helse))
  | «while» _ _ _ ihc ihb ihi =>
      obtain ⟨s', rfl, hs⟩ := eq_stmt_of_bare hbare
      cases s' <;> simp only [Stmt.bare, reduceCtorEq, Stmt.while.injEq] at hs
      exact .while (ihc (congrArg Node.expr hs.1)) (ihb (congrArg Node.stmt hs.2.1))
        (hoptional hs.2.2 fun e he _ => ihi e he)
  | «break» =>
      obtain ⟨s', rfl, hs⟩ := eq_stmt_of_bare hbare
      cases s' <;> simp only [Stmt.bare, reduceCtorEq] at hs
      exact .break
  | «continue» =>
      obtain ⟨s', rfl, hs⟩ := eq_stmt_of_bare hbare
      cases s' <;> simp only [Stmt.bare, reduceCtorEq] at hs
      exact .continue
  | «return» _ ih =>
      obtain ⟨s', rfl, hs⟩ := eq_stmt_of_bare hbare
      cases s' <;> simp only [Stmt.bare, reduceCtorEq, Stmt.return.injEq] at hs
      exact .return (hoptional hs.2 fun e he _ => ih e he)
  | declaration _ ih =>
      obtain ⟨s', rfl, hs⟩ := eq_stmt_of_bare hbare
      obtain ⟨d, rfl, hd⟩ := Stmt.eq_function_of_bare hs
      exact .declaration (ih (congrArg Node.function hd))
  | «class» _ ih =>
      obtain ⟨s', rfl, hs⟩ := eq_stmt_of_bare hbare
      obtain ⟨_, methods, rfl, -, hmethods⟩ := Stmt.eq_class_of_bare hs
      refine .class fun d hd => ?_
      obtain ⟨d', hd', hb⟩ := exists_mem_of_map hmethods.symm hd
      exact ih d' hd' (congrArg Node.function hb.symm)
  | importModule =>
      obtain ⟨s', rfl, hs⟩ := eq_stmt_of_bare hbare
      cases s' <;> simp only [Stmt.bare, reduceCtorEq] at hs
      exact .importModule
  | function _ ih =>
      obtain ⟨d', rfl, hd⟩ := eq_function_of_bare hbare
      refine .function fun s hs => ?_
      have hbody := congrArg FunctionDecl.body hd
      rw [FunctionDecl.body_bare, FunctionDecl.body_bare] at hbody
      obtain ⟨t, ht, hb⟩ := exists_mem_of_map hbody.symm hs
      exact ih t ht (congrArg Node.stmt hb.symm)

/-- A node as it is read, which can stand somewhere. -/
structure Read (n : Node) : Prop where
  legal : ∃ inLoop inFunction, Legal inLoop inFunction n
  unresolved : n.Unresolved

namespace Read
variable {n : Node}

theorem named (h : n.Read) : n.Named := fun q hq => (h.unresolved q hq).1.changes

theorem inner (frames : List Frame) {q : Position} (h : n.Read) (hi : Inner ⟨frames, n⟩ q) :
    q.node.Read := by
  obtain ⟨l, f, hlegal⟩ := h.legal
  exact ⟨hlegal.inner hi, h.unresolved.inward frames hi⟩

theorem part {m : Node} (h : n.Read) (hm : m ∈ n.parts) : m.Read := h.inner [] (.part hm)

theorem block {body : List Stmt} (h : (Node.stmt (.block body)).Read) {s : Stmt} (hs : s ∈ body) :
    (Node.stmt s).Read := by
  obtain ⟨before, after, rfl⟩ := List.append_of_mem hs
  exact h.inner [] .block

theorem method {name : Token} {superclass : Option NameUse} {methods : List FunctionDecl}
    (h : (Node.stmt (.class name superclass methods)).Read) {d : FunctionDecl}
    (hd : d ∈ methods) : (Node.function d).Read := by
  cases superclass with
  | none => exact h.inner [] (.method hd)
  | some use => exact h.inner [] (.inherited hd)

theorem same (h : n.Read) : n.Same := by
  obtain ⟨l, f, hlegal⟩ := h.legal
  exact hlegal.same

section
variable {f : Shift}

theorem expr {e : Expr} (h : (Node.expr e).Read) : Expr.WrittenOut f e e :=
  h.same f h.named (.inr h.unresolved)

theorem stmt {s : Stmt} {j : Jumps} (h : (Node.stmt s).Read) (hstanding : s.Standing f)
    (hjumping : s.Jumping j) : Stmt.WrittenOut j f s s :=
  h.same f j h.named (.inr h.unresolved) hstanding hjumping

theorem function {d : FunctionDecl} (h : (Node.function d).Read) (hopen : f 0 = 0) :
    FunctionDecl.WrittenOut f d d := h.same f hopen h.named (.inr h.unresolved)

end

theorem standing {s : Stmt} (h : (Node.stmt s).Read) (f : Shift) {t : Stmt}
    (ht : (Node.stmt s).Formed → t.declares = []) : t.Standing f :=
  Kept.standing (.inr h.unresolved) ht

end Read
end Node

/-! ### Replacing -/

/-- A statement somewhere in a node is replaced. -/
inductive Node.Replaced (R : Stmt → Stmt → Prop) : Node → Node → Prop
  | here {s s' : Stmt} : R s s' → Replaced R (.stmt s) (.stmt s')
  | grouping {e e' : Expr} : Replaced R (.expr e) (.expr e') →
      Replaced R (.expr (.grouping e)) (.expr (.grouping e'))
  | assign {use : NameUse} {e e' : Expr} : Replaced R (.expr e) (.expr e') →
      Replaced R (.expr (.assign use e)) (.expr (.assign use e'))
  | unary {op : UnaryOp} {token : Token} {e e' : Expr} : Replaced R (.expr e) (.expr e') →
      Replaced R (.expr (.unary op token e)) (.expr (.unary op token e'))
  | binaryLeft {op : BinaryOp} {token : Token} {e e' right : Expr} :
      Replaced R (.expr e) (.expr e') →
      Replaced R (.expr (.binary e op token right)) (.expr (.binary e' op token right))
  | binaryRight {op : BinaryOp} {token : Token} {left e e' : Expr} :
      Replaced R (.expr e) (.expr e') →
      Replaced R (.expr (.binary left op token e)) (.expr (.binary left op token e'))
  | logicalLeft {op : LogicalOp} {token : Token} {e e' right : Expr} :
      Replaced R (.expr e) (.expr e') →
      Replaced R (.expr (.logical e op token right)) (.expr (.logical e' op token right))
  | logicalRight {op : LogicalOp} {token : Token} {left e e' : Expr} :
      Replaced R (.expr e) (.expr e') →
      Replaced R (.expr (.logical left op token e)) (.expr (.logical left op token e'))
  | callee {paren : Token} {e e' : Expr} {arguments : List Expr} :
      Replaced R (.expr e) (.expr e') →
      Replaced R (.expr (.call e paren arguments)) (.expr (.call e' paren arguments))
  | argument {callee : Expr} {paren : Token} {before after : List Expr} {e e' : Expr} :
      Replaced R (.expr e) (.expr e') →
      Replaced R (.expr (.call callee paren (before ++ e :: after)))
        (.expr (.call callee paren (before ++ e' :: after)))
  | get {e e' : Expr} {name : Token} : Replaced R (.expr e) (.expr e') →
      Replaced R (.expr (.get e name)) (.expr (.get e' name))
  | setObject {e e' value : Expr} {name : Token} : Replaced R (.expr e) (.expr e') →
      Replaced R (.expr (.set e name value)) (.expr (.set e' name value))
  | setValue {object e e' : Expr} {name : Token} : Replaced R (.expr e) (.expr e') →
      Replaced R (.expr (.set object name e)) (.expr (.set object name e'))
  | lambda {d d' : FunctionDecl} : Replaced R (.function d) (.function d') →
      Replaced R (.expr (.lambda d)) (.expr (.lambda d'))
  | expression {e e' : Expr} : Replaced R (.expr e) (.expr e') →
      Replaced R (.stmt (.expression e)) (.stmt (.expression e'))
  | print {e e' : Expr} : Replaced R (.expr e) (.expr e') →
      Replaced R (.stmt (.print e)) (.stmt (.print e'))
  | var {mutability : Mutability} {name : Token} {e e' : Expr} : Replaced R (.expr e) (.expr e') →
      Replaced R (.stmt (.var mutability name (some e))) (.stmt (.var mutability name (some e')))
  | block {before after : List Stmt} {s s' : Stmt} : Replaced R (.stmt s) (.stmt s') →
      Replaced R (.stmt (.block (before ++ s :: after))) (.stmt (.block (before ++ s' :: after)))
  | ifCondition {e e' : Expr} {t : Stmt} {u : Option Stmt} : Replaced R (.expr e) (.expr e') →
      Replaced R (.stmt (.if e t u)) (.stmt (.if e' t u))
  | thenBranch {c : Expr} {s s' : Stmt} {u : Option Stmt} : Replaced R (.stmt s) (.stmt s') →
      Replaced R (.stmt (.if c s u)) (.stmt (.if c s' u))
  | elseBranch {c : Expr} {t s s' : Stmt} : Replaced R (.stmt s) (.stmt s') →
      Replaced R (.stmt (.if c t (some s))) (.stmt (.if c t (some s')))
  | whileCondition {e e' : Expr} {t : Stmt} {u : Option Expr} : Replaced R (.expr e) (.expr e') →
      Replaced R (.stmt (.while e t u)) (.stmt (.while e' t u))
  | whileBody {c : Expr} {s s' : Stmt} {u : Option Expr} : Replaced R (.stmt s) (.stmt s') →
      Replaced R (.stmt (.while c s u)) (.stmt (.while c s' u))
  | increment {c : Expr} {t : Stmt} {e e' : Expr} : Replaced R (.expr e) (.expr e') →
      Replaced R (.stmt (.while c t (some e))) (.stmt (.while c t (some e')))
  | return {keyword : Token} {e e' : Expr} : Replaced R (.expr e) (.expr e') →
      Replaced R (.stmt (.return keyword (some e))) (.stmt (.return keyword (some e')))
  | function {d d' : FunctionDecl} : Replaced R (.function d) (.function d') →
      Replaced R (.stmt (.function d)) (.stmt (.function d'))
  | method {name : Token} {use : Option NameUse} {before after : List FunctionDecl}
      {d d' : FunctionDecl} : Replaced R (.function d) (.function d') →
      Replaced R (.stmt (.class name use (before ++ d :: after)))
        (.stmt (.class name use (before ++ d' :: after)))
  | body {name : Option Token} {parameters : List Token} {before after : List Stmt} {s s' : Stmt} :
      Replaced R (.stmt s) (.stmt s') →
      Replaced R (.function (.mk name parameters (before ++ s :: after)))
        (.function (.mk name parameters (before ++ s' :: after)))

/-- The second node is the first one, with loops written out. -/
def Node.Becomes : Node → Node → Prop
  | .expr e, .expr e' => ∀ f, Expr.WrittenOut f e e'
  | .stmt s, .stmt s' => ∀ f j, s.Standing f → s.Jumping j → Stmt.WrittenOut j f s s'
  | .function d, .function d' => ∀ f, f 0 = 0 → FunctionDecl.WrittenOut f d d'
  | _, _ => False

namespace WrittenOut
variable {f : Shift} {j : Jumps}

theorem expressions_around {before after : List Expr} {e e' : Expr} (h : Expr.WrittenOut f e e')
    (hall : ∀ x ∈ before ++ e :: after, Expr.WrittenOut f x x) :
    ExprsWrittenOut f (before ++ e :: after) (before ++ e' :: after) := by
  induction before with
  | nil => exact .cons h (expressions fun e he => hall e (List.mem_cons_of_mem _ he))
  | cons b before ih =>
      exact .cons (hall b (List.mem_cons_self ..)) (ih fun e he => hall e (List.mem_cons_of_mem _ he))

theorem statements_around {before after : List Stmt} {s s' : Stmt} (h : Stmt.WrittenOut j f s s')
    (hall : ∀ t ∈ before ++ s :: after, Stmt.WrittenOut j f t t) :
    StmtsWrittenOut j f (before ++ s :: after) (before ++ s' :: after) := by
  induction before with
  | nil => exact .cons h (statements fun s hs => hall s (List.mem_cons_of_mem _ hs))
  | cons b before ih =>
      exact .cons (hall b (List.mem_cons_self ..)) (ih fun s hs => hall s (List.mem_cons_of_mem _ hs))

theorem functions_around {before after : List FunctionDecl} {d d' : FunctionDecl}
    (h : FunctionDecl.WrittenOut f d d')
    (hall : ∀ x ∈ before ++ d :: after, FunctionDecl.WrittenOut f x x) :
    FunctionsWrittenOut f (before ++ d :: after) (before ++ d' :: after) := by
  induction before with
  | nil => exact .cons h (functions fun d hd => hall d (List.mem_cons_of_mem _ hd))
  | cons b before ih =>
      exact .cons (hall b (List.mem_cons_self ..)) (ih fun d hd => hall d (List.mem_cons_of_mem _ hd))

end WrittenOut

theorem mem_around {α : Type} (before after : List α) (a : α) : a ∈ before ++ a :: after :=
  List.mem_append_right _ (List.mem_cons_self ..)

namespace Node

section
variable {f : Shift} {c : Expr} {s : Stmt}

theorem Read.condition {t : Option Stmt} (h : (Node.stmt (.if c s t)).Read) :
    Expr.WrittenOut f c c := (h.part (List.mem_cons_self ..)).expr

theorem Read.branch {j : Jumps} {t : Option Stmt} (h : (Node.stmt (.if c s t)).Read)
    (hjumping : (Stmt.if c s t).Jumping j) : Stmt.WrittenOut j f s s :=
  (h.part (List.mem_cons_of_mem _ (List.mem_cons_self ..))).stmt (h.standing f fun hf => hf.1)
    (hjumping.part fun _ hu => .thenBranch hu)

theorem Read.otherwise {j : Jumps} {t : Option Stmt} (h : (Node.stmt (.if c s t)).Read)
    (hjumping : (Stmt.if c s t).Jumping j) : StmtsWrittenOut j f t.toList t.toList := by
  refine WrittenOut.statements fun u hu => ?_
  obtain rfl := Option.mem_toList.mp hu
  exact (h.part (List.mem_cons_of_mem _ (List.mem_cons_of_mem _ (List.mem_singleton_self _)))).stmt
    (h.standing f fun hf => hf.2 u rfl) (hjumping.part fun _ hv => .elseBranch hv)

variable {i : Option Expr} (h : (Node.stmt (.while c s i)).Read)
include h

theorem Read.test : Expr.WrittenOut f c c := (h.part (List.mem_cons_self ..)).expr

theorem Read.round {j : Jumps} (hjumping : s.Jumping j) : Stmt.WrittenOut j f s s :=
  (h.part (List.mem_cons_of_mem _ (List.mem_cons_self ..))).stmt (h.standing f fun hf => hf) hjumping

theorem Read.advance : ExprsWrittenOut f i.toList i.toList := by
  refine WrittenOut.expressions fun e he => (h.part ?_).expr
  exact List.mem_cons_of_mem _ (List.mem_cons_of_mem _ (List.mem_map_of_mem he))

end

/-- Where a statement is replaced by one with loops written out, a node becomes one. -/
theorem Replaced.becomes {R : Stmt → Stmt → Prop}
    (hR : ∀ s s', R s s' → (Node.stmt s).Read → (Node.stmt s).Becomes (.stmt s')) {n n' : Node}
    (h : Replaced R n n') (hread : n.Read) : n.Becomes n' := by
  induction h with
  | here h => exact hR _ _ h hread
  | grouping _ ih => exact fun f => .grouping (ih (hread.part (List.mem_cons_self ..)) f)
  | assign _ ih =>
      intro f
      have hname := hread.named.here _ (List.mem_singleton_self _)
      have h := Expr.WrittenOut.assign hname (ih (hread.part (List.mem_cons_self ..)) f)
      rwa [Kept.use (.inr hread.unresolved) rfl] at h
  | unary _ ih => exact fun f => .unary (ih (hread.part (List.mem_cons_self ..)) f)
  | binaryLeft _ ih =>
      exact fun f => .binary (ih (hread.part (List.mem_cons_self ..)) f)
        (hread.part (List.mem_cons_of_mem _ (List.mem_singleton_self _))).expr
  | binaryRight _ ih =>
      exact fun f => .binary (hread.part (List.mem_cons_self ..)).expr
        (ih (hread.part (List.mem_cons_of_mem _ (List.mem_singleton_self _))) f)
  | logicalLeft _ ih =>
      exact fun f => .logical (ih (hread.part (List.mem_cons_self ..)) f)
        (hread.part (List.mem_cons_of_mem _ (List.mem_singleton_self _))).expr
  | logicalRight _ ih =>
      exact fun f => .logical (hread.part (List.mem_cons_self ..)).expr
        (ih (hread.part (List.mem_cons_of_mem _ (List.mem_singleton_self _))) f)
  | callee _ ih =>
      refine fun f => .call (ih (hread.part (List.mem_cons_self ..)) f)
        (WrittenOut.expressions fun e he => ?_)
      exact (hread.part (List.mem_cons_of_mem _ (List.mem_map_of_mem he))).expr
  | @argument callee paren before after e e' _ ih =>
      have hparts : ∀ a ∈ before ++ e :: after, (Node.expr a).Read := fun a ha =>
        hread.part (List.mem_cons_of_mem _ (List.mem_map_of_mem ha))
      refine fun f => .call (hread.part (List.mem_cons_self ..)).expr ?_
      exact WrittenOut.expressions_around (ih (hparts e (mem_around ..)) f)
        fun a ha => (hparts a ha).expr
  | get _ ih => exact fun f => .get (ih (hread.part (List.mem_cons_self ..)) f)
  | setObject _ ih =>
      have hname := hread.named.here _ (List.mem_singleton_self _)
      exact fun f => .set hname (ih (hread.part (List.mem_cons_self ..)) f)
        (hread.part (List.mem_cons_of_mem _ (List.mem_singleton_self _))).expr
  | setValue _ ih =>
      have hname := hread.named.here _ (List.mem_singleton_self _)
      exact fun f => .set hname (hread.part (List.mem_cons_self ..)).expr
        (ih (hread.part (List.mem_cons_of_mem _ (List.mem_singleton_self _))) f)
  | lambda _ ih =>
      exact fun f => .lambda (ih (hread.part (List.mem_singleton_self _)) f.inside rfl)
  | expression _ ih =>
      exact fun f j _ _ => .expression (ih (hread.part (List.mem_cons_self ..)) f)
  | print _ ih => exact fun f j _ _ => .print (ih (hread.part (List.mem_cons_self ..)) f)
  | var _ ih =>
      intro f j hstanding _
      exact .var (hstanding.resolve_right (List.cons_ne_nil _ _))
        (hread.named.here _ (List.mem_singleton_self _)) (.cons (ih (hread.inner [] .initial) f) .nil)
  | @block before after s s' _ ih =>
      intro f j _ hjumping
      have hparts : ∀ t ∈ before ++ s :: after, (Node.stmt t).Read ∧ t.Jumping j := fun t ht =>
        ⟨hread.block ht, hjumping.part fun u hu => .block ht hu⟩
      obtain ⟨hs, hj⟩ := hparts s (mem_around ..)
      exact .block (WrittenOut.statements_around (ih hs f.inside j (.inl rfl) hj)
        fun t ht => (hparts t ht).1.stmt (.inl rfl) (hparts t ht).2)
  | ifCondition _ ih =>
      exact fun f j _ hjumping => .if (ih (hread.part (List.mem_cons_self ..)) f)
        (hread.branch hjumping) (hread.otherwise hjumping)
  | thenBranch _ ih =>
      intro f j _ hjumping
      have hs := ih (hread.part (List.mem_cons_of_mem _ (List.mem_cons_self ..))) f j
        (hread.standing f fun hf => hf.1) (hjumping.part fun _ hu => .thenBranch hu)
      exact .if hread.condition hs (hread.otherwise hjumping)
  | elseBranch _ ih =>
      intro f j _ hjumping
      have hs := ih (hread.part (List.mem_cons_of_mem _ (List.mem_cons_of_mem _
        (List.mem_singleton_self _)))) f j (hread.standing f fun hf => hf.2 _ rfl)
        (hjumping.part fun _ hu => .elseBranch hu)
      exact .if hread.condition (hread.branch hjumping) (.cons hs .nil)
  | whileCondition _ ih =>
      exact fun f j _ _ => .while (ih (hread.part (List.mem_cons_self ..)) f)
        (hread.round fun c _ => Jumps.all_allows c) hread.advance
  | whileBody _ ih =>
      intro f j _ _
      have hs := ih (hread.part (List.mem_cons_of_mem _ (List.mem_cons_self ..))) f .all
        (hread.standing f fun hf => hf) fun c _ => Jumps.all_allows c
      exact .while hread.test hs hread.advance
  | increment _ ih =>
      intro f j _ _
      have he := ih (hread.part (List.mem_cons_of_mem _ (List.mem_cons_of_mem _
        (List.mem_singleton_self _)))) f
      exact .while hread.test (hread.round fun c _ => Jumps.all_allows c) (.cons he .nil)
  | «return» _ ih =>
      exact fun f j _ _ => .return (.cons (ih (hread.part (List.mem_singleton_self _)) f) .nil)
  | function _ ih =>
      intro f j hstanding _
      exact .function (hstanding.resolve_right (List.cons_ne_nil _ _))
        (hread.named.here _ (List.mem_singleton_self _)) (ih (hread.inner [] .declared) f.inside rfl)
  | @method name use before after d d' _ ih =>
      intro f j hstanding _
      have hopen := hstanding.resolve_right (List.cons_ne_nil _ _)
      have hname := hread.named.here _ (List.mem_singleton_self _)
      have hmethods : ∀ {g : Shift}, g 0 = 0 →
          FunctionsWrittenOut g (before ++ d :: after) (before ++ d' :: after) := fun hg =>
        WrittenOut.functions_around (ih (hread.method (mem_around ..)) _ hg)
          fun x hx => (hread.method hx).function hg
      cases use with
      | none => exact .root hopen hname (hmethods rfl)
      | some use =>
          have h : Stmt.WrittenOut j f (.class name (some use) (before ++ d :: after))
              (.class name (some (use.shift f)) (before ++ d' :: after)) :=
            .derived hopen hname (hmethods rfl)
          have huse : (Node.expr (.name use)).Read := hread.part (List.mem_singleton_self _)
          rwa [Kept.use (.inr huse.unresolved) rfl] at h
  | @body name parameters before after s s' _ ih =>
      intro f hopen
      obtain ⟨l, i, hlegal⟩ := hread.legal
      have hparts : ∀ t ∈ before ++ s :: after, (Node.stmt t).Read ∧ t.Jumping .none := by
        intro t ht
        obtain ⟨first, rest, hbody⟩ := List.append_of_mem ht
        exact ⟨hread.inner [] (.body hbody), (hlegal.body t ht).jumping .none⟩
      obtain ⟨hs, hj⟩ := hparts s (mem_around ..)
      refine .mk (fun p hp => hread.named.here _ (List.mem_map_of_mem hp)) ?_
      exact WrittenOut.statements_around (ih hs f .none (.inl hopen) hj)
        fun t ht => (hparts t ht).1.stmt (.inl hopen) (hparts t ht).2

end Node

/-! ### `for` loops -/

/-- What one would write for a `for` loop by hand:
`{ initial while (condition) { body increment; } }`. -/
def byHand (initial : Option Stmt) (condition increment : Option Expr) (body : Stmt) : Stmt :=
  .block (initial.toList ++ [.while (condition.getD (.literal (.bool true)))
    (.block (body :: increment.toList.map .expression)) none])

/-- A `for` loop whose body has no `continue` of its own, and what one would write by hand. -/
inductive Stmt.ForByHand : Stmt → Stmt → Prop
  | intro {initial : Option Stmt} {condition increment : Option Expr} {body : Stmt} :
      ¬body.Raises .continue → ForByHand (Parser.forLoop initial condition increment body)
        (byHand initial condition increment body)

theorem Stmt.ForByHand.becomes {s s' : Stmt} (h : s.ForByHand s') (hread : (Node.stmt s).Read) :
    (Node.stmt s).Becomes (.stmt s') := by
  cases h with
  | @intro initial condition increment body hcontinue =>
      have hbody : body.Jumping .break := by
        intro c hc
        cases c with
        | «return» v => trivial
        | «break» => exact .inl rfl
        | «continue» => exact (hcontinue hc).elim
      intro f j _ hjumping
      cases initial with
      | none =>
          have hloop : (Node.stmt (.while (condition.getD (.literal (.bool true))) body
              increment)).Read := hread
          exact .wrapped hloop.test (hloop.round hbody) hloop.advance
      | some initial =>
          have hloop : (Node.stmt (.while (condition.getD (.literal (.bool true))) body
              increment)).Read := hread.block (List.mem_cons_of_mem _ (List.mem_singleton_self _))
          have hinitial : Stmt.WrittenOut j f.inside initial initial :=
            (hread.block (List.mem_cons_self ..)).stmt (.inl rfl)
              (hjumping.part fun _ hu => .block (List.mem_cons_self ..) hu)
          exact .block (.cons hinitial
            (.cons (.spelled hloop.test (hloop.round hbody) hloop.advance) .nil))

namespace UnitText
variable {t : UnitText} (hok : t.unit.ok = true)
include hok

/-- The statements of an accepted text can stand where they do. -/
theorem read {s : Stmt} (hs : s ∈ t.parsed.statements) :
    Node.Legal false false (.stmt s) ∧ (Node.stmt s).Read := by
  obtain ⟨s', hs', hbare⟩ := exists_mem_of_map (bare_statements hok) hs
  have hlegal : Node.Legal false false (.stmt s) :=
    (legal hok s' hs').of_bare (congrArg Node.stmt hbare.symm)
  exact ⟨hlegal, ⟨_, _, hlegal⟩, unresolved hok s hs⟩

/-- With a `for` loop in it replaced by hand, the text has a loop written out. -/
theorem writtenOut_byHand {before after : List Stmt} {s s' : Stmt}
    (hs : t.parsed.statements = before ++ s :: after)
    (hreplaced : Node.Replaced Stmt.ForByHand (.stmt s) (.stmt s')) :
    StmtsWrittenOut .none id t.parsed.statements (before ++ s' :: after) := by
  have hparts : ∀ t' ∈ t.parsed.statements, (Node.stmt t').Read ∧ t'.Jumping .none := by
    intro t' ht
    obtain ⟨hlegal, hread⟩ := read hok ht
    exact ⟨hread, hlegal.jumping .none⟩
  rw [hs] at hparts ⊢
  obtain ⟨hread, hjumping⟩ := hparts s (mem_around ..)
  have hbecomes := hreplaced.becomes (fun _ _ h hread => h.becomes hread) hread
  exact WrittenOut.statements_around (hbecomes id .none (.inl rfl) hjumping)
    fun t' ht => (hparts t' ht).1.stmt (.inl rfl) (hparts t' ht).2

end UnitText
end Treewalk
