import Treewalk.Proofs.Scopes.Words
import Treewalk.Proofs.Control.Signals

/-!
# Loops written out by hand

A `for` loop is a `while` loop with an increment, in a block of its own if it has an initializer. By
hand one would write a block around every such loop and a block in it, with the body and the
increment as its last statement. A tree with some of its loops written out like this has more scopes,
empty ones, so that its uses have more hops.
-/
namespace Treewalk

/-- Where the hops of a use in one tree lead in the other. -/
abbrev Shift := Nat → Nat

namespace Shift

/-- Inside a scope that both trees have. -/
def inside (f : Shift) : Shift
  | 0 => 0
  | hops + 1 => f hops + 1

/-- Inside a scope that only the second tree has. -/
def under (f : Shift) : Shift := fun hops => f hops + 1

theorem inside_id : inside id = id := by
  funext hops
  cases hops <;> rfl

end Shift

/-- A use in the other tree. -/
def NameUse.shift (f : Shift) (use : NameUse) : NameUse := { use with hops := use.hops.map f }

@[simp] theorem NameUse.name_shift (f : Shift) (use : NameUse) : (use.shift f).name = use.name := rfl

@[simp] theorem NameUse.hops_shift (f : Shift) (use : NameUse) :
    (use.shift f).hops = use.hops.map f := rfl

@[simp] theorem NameUse.shift_id (use : NameUse) : use.shift id = use := by
  cases use
  simp only [NameUse.shift, Option.map_id, id_eq]

theorem NameUse.shift_of_none {f : Shift} {use : NameUse} (h : use.hops = none) :
    use.shift f = use := by
  obtain ⟨name, hops⟩ := use
  cases h
  rfl

/-- The jumps of its own that a statement may have: none outside of loops, a `break` alone where the
increment follows the body. -/
inductive Jumps
  | none | break | continue | all
deriving DecidableEq

/-- The signals that may leave a statement. -/
def Jumps.Allows : Jumps → Signal → Prop
  | _, .return _ => True
  | j, .break => j = .break ∨ j = .all
  | j, .continue => j = .continue ∨ j = .all

theorem Jumps.all_allows (c : Signal) : Jumps.all.Allows c := by
  cases c with
  | «return» v => trivial
  | «break» | «continue» => exact .inr rfl

/-- The signal of a jump that a statement has of its own, in no loop inside it. -/
def Stmt.Raises (s : Stmt) : Signal → Prop
  | .return _ => True
  | .break => ∃ keyword, s.Holds false (.break keyword)
  | .continue => ∃ keyword, s.Holds false (.continue keyword)

/-- The jumps that a statement has of its own. -/
theorem Stmt.exists_jumps (s : Stmt) : ∃ j : Jumps, ∀ c, j.Allows c ↔ s.Raises c := by
  have hend : ∀ (j : Jumps), (j.Allows .break ↔ s.Raises .break) →
      (j.Allows .continue ↔ s.Raises .continue) → ∃ j : Jumps, ∀ c, j.Allows c ↔ s.Raises c := by
    refine fun j hb hc => ⟨j, fun c => ?_⟩
    cases c with
    | «return» v => exact Iff.rfl
    | «break» => exact hb
    | «continue» => exact hc
  by_cases hb : s.Raises .break <;> by_cases hc : s.Raises .continue
  · exact hend .all (by simp [Jumps.Allows, hb]) (by simp [Jumps.Allows, hc])
  · exact hend .break (by simp [Jumps.Allows, hb]) (by simp [Jumps.Allows, hc])
  · exact hend .continue (by simp [Jumps.Allows, hb]) (by simp [Jumps.Allows, hc])
  · exact hend .none (by simp [Jumps.Allows, hb]) (by simp [Jumps.Allows, hc])

mutual

/-- The second expression is the first one, with loops in its functions written out. -/
inductive Expr.WrittenOut : Shift → Expr → Expr → Prop
  | literal {f : Shift} (value : Literal) : Expr.WrittenOut f (.literal value) (.literal value)
  | grouping {f : Shift} {e e' : Expr} : Expr.WrittenOut f e e' →
      Expr.WrittenOut f (.grouping e) (.grouping e')
  | name {f : Shift} (use : NameUse) : Expr.WrittenOut f (.name use) (.name (use.shift f))
  | assign {f : Shift} {use : NameUse} {e e' : Expr} :
      TokenKind.ofWord use.name.lexeme = .identifier → Expr.WrittenOut f e e' →
      Expr.WrittenOut f (.assign use e) (.assign (use.shift f) e')
  | unary {f : Shift} {op : UnaryOp} {token : Token} {e e' : Expr} : Expr.WrittenOut f e e' →
      Expr.WrittenOut f (.unary op token e) (.unary op token e')
  | binary {f : Shift} {a a' b b' : Expr} {op : BinaryOp} {token : Token} :
      Expr.WrittenOut f a a' → Expr.WrittenOut f b b' →
      Expr.WrittenOut f (.binary a op token b) (.binary a' op token b')
  | logical {f : Shift} {a a' b b' : Expr} {op : LogicalOp} {token : Token} :
      Expr.WrittenOut f a a' → Expr.WrittenOut f b b' →
      Expr.WrittenOut f (.logical a op token b) (.logical a' op token b')
  | call {f : Shift} {callee callee' : Expr} {paren : Token} {es es' : List Expr} :
      Expr.WrittenOut f callee callee' → ExprsWrittenOut f es es' →
      Expr.WrittenOut f (.call callee paren es) (.call callee' paren es')
  | get {f : Shift} {e e' : Expr} {name : Token} : Expr.WrittenOut f e e' →
      Expr.WrittenOut f (.get e name) (.get e' name)
  | set {f : Shift} {a a' b b' : Expr} {name : Token} : TokenKind.ofWord name.lexeme = .identifier →
      Expr.WrittenOut f a a' → Expr.WrittenOut f b b' →
      Expr.WrittenOut f (.set a name b) (.set a' name b')
  | this {f : Shift} (use : NameUse) : Expr.WrittenOut f (.this use) (.this (use.shift f))
  | super {f : Shift} (use : NameUse) (method : Token) :
      Expr.WrittenOut f (.super use method) (.super (use.shift f) method)
  | lambda {f : Shift} {d d' : FunctionDecl} : FunctionDecl.WrittenOut f.inside d d' →
      Expr.WrittenOut f (.lambda d) (.lambda d')

inductive ExprsWrittenOut : Shift → List Expr → List Expr → Prop
  | nil {f : Shift} : ExprsWrittenOut f [] []
  | cons {f : Shift} {e e' : Expr} {es es' : List Expr} : Expr.WrittenOut f e e' →
      ExprsWrittenOut f es es' → ExprsWrittenOut f (e :: es) (e' :: es')

/-- The second statement is the first one, with loops written out. What declares a name stands in a
scope that both trees have, and a loop is written out only if its body has no `continue` of its
own. -/
inductive Stmt.WrittenOut : Jumps → Shift → Stmt → Stmt → Prop
  | expression {j : Jumps} {f : Shift} {e e' : Expr} : Expr.WrittenOut f e e' →
      Stmt.WrittenOut j f (.expression e) (.expression e')
  | print {j : Jumps} {f : Shift} {e e' : Expr} : Expr.WrittenOut f e e' →
      Stmt.WrittenOut j f (.print e) (.print e')
  | var {j : Jumps} {f : Shift} {mutability : Mutability} {name : Token} {e e' : Option Expr} :
      f 0 = 0 → TokenKind.ofWord name.lexeme = .identifier → ExprsWrittenOut f e.toList e'.toList →
      Stmt.WrittenOut j f (.var mutability name e) (.var mutability name e')
  | block {j : Jumps} {f : Shift} {ss ss' : List Stmt} : StmtsWrittenOut j f.inside ss ss' →
      Stmt.WrittenOut j f (.block ss) (.block ss')
  | if {j : Jumps} {f : Shift} {c c' : Expr} {s s' : Stmt} {t t' : Option Stmt} :
      Expr.WrittenOut f c c' → Stmt.WrittenOut j f s s' →
      StmtsWrittenOut j f t.toList t'.toList → Stmt.WrittenOut j f (.if c s t) (.if c' s' t')
  | while {j : Jumps} {f : Shift} {c c' : Expr} {s s' : Stmt} {e e' : Option Expr} :
      Expr.WrittenOut f c c' → Stmt.WrittenOut .all f s s' →
      ExprsWrittenOut f e.toList e'.toList → Stmt.WrittenOut j f (.while c s e) (.while c' s' e')
  /-- A loop in a block of its own. -/
  | spelled {j : Jumps} {f : Shift} {c c' : Expr} {s s' : Stmt} {e e' : Option Expr} :
      Expr.WrittenOut f c c' → Stmt.WrittenOut .break f.under s s' →
      ExprsWrittenOut f.under e.toList e'.toList →
      Stmt.WrittenOut j f (.while c s e)
        (.while c' (.block (s' :: e'.toList.map .expression)) none)
  /-- A loop that has no block of its own gets one. -/
  | wrapped {j : Jumps} {f : Shift} {c c' : Expr} {s s' : Stmt} {e e' : Option Expr} :
      Expr.WrittenOut f.under c c' → Stmt.WrittenOut .break f.under.under s s' →
      ExprsWrittenOut f.under.under e.toList e'.toList →
      Stmt.WrittenOut j f (.while c s e)
        (.block [.while c' (.block (s' :: e'.toList.map .expression)) none])
  | break {j : Jumps} {f : Shift} {keyword : Token} : j.Allows .break →
      Stmt.WrittenOut j f (.break keyword) (.break keyword)
  | continue {j : Jumps} {f : Shift} {keyword : Token} : j.Allows .continue →
      Stmt.WrittenOut j f (.continue keyword) (.continue keyword)
  | return {j : Jumps} {f : Shift} {keyword : Token} {e e' : Option Expr} :
      ExprsWrittenOut f e.toList e'.toList →
      Stmt.WrittenOut j f (.return keyword e) (.return keyword e')
  | function {j : Jumps} {f : Shift} {d d' : FunctionDecl} : f 0 = 0 →
      TokenKind.ofWord d.displayName = .identifier → FunctionDecl.WrittenOut f.inside d d' →
      Stmt.WrittenOut j f (.function d) (.function d')
  | root {j : Jumps} {f : Shift} {name : Token} {ds ds' : List FunctionDecl} : f 0 = 0 →
      TokenKind.ofWord name.lexeme = .identifier → FunctionsWrittenOut f.inside.inside ds ds' →
      Stmt.WrittenOut j f (.class name none ds) (.class name none ds')
  | derived {j : Jumps} {f : Shift} {name : Token} {use : NameUse} {ds ds' : List FunctionDecl} :
      f 0 = 0 → TokenKind.ofWord name.lexeme = .identifier →
      FunctionsWrittenOut f.inside.inside.inside ds ds' →
      Stmt.WrittenOut j f (.class name (some use) ds) (.class name (some (use.shift f)) ds')
  | importModule {j : Jumps} {f : Shift} {keyword name : Token} {as : Option Token} : f 0 = 0 →
      Stmt.WrittenOut j f (.importModule keyword name as) (.importModule keyword name as)

inductive StmtsWrittenOut : Jumps → Shift → List Stmt → List Stmt → Prop
  | nil {j : Jumps} {f : Shift} : StmtsWrittenOut j f [] []
  | cons {j : Jumps} {f : Shift} {s s' : Stmt} {ss ss' : List Stmt} : Stmt.WrittenOut j f s s' →
      StmtsWrittenOut j f ss ss' → StmtsWrittenOut j f (s :: ss) (s' :: ss')

/-- The second function is the first one, with loops written out, seen from its own scope. -/
inductive FunctionDecl.WrittenOut : Shift → FunctionDecl → FunctionDecl → Prop
  | mk {f : Shift} {name : Option Token} {parameters : List Token} {ss ss' : List Stmt} :
      (∀ p ∈ parameters, TokenKind.ofWord p.lexeme = .identifier) → StmtsWrittenOut .none f ss ss' →
      FunctionDecl.WrittenOut f (.mk name parameters ss) (.mk name parameters ss')

inductive FunctionsWrittenOut : Shift → List FunctionDecl → List FunctionDecl → Prop
  | nil {f : Shift} : FunctionsWrittenOut f [] []
  | cons {f : Shift} {d d' : FunctionDecl} {ds ds' : List FunctionDecl} :
      FunctionDecl.WrittenOut f d d' → FunctionsWrittenOut f ds ds' →
      FunctionsWrittenOut f (d :: ds) (d' :: ds')

end

namespace FunctionDecl.WrittenOut
variable {f : Shift} {d d' : FunctionDecl}

theorem parameters (h : FunctionDecl.WrittenOut f d d') : d'.parameters = d.parameters := by
  cases h
  rfl

theorem displayName (h : FunctionDecl.WrittenOut f d d') : d'.displayName = d.displayName := by
  cases h
  rfl

theorem body (h : FunctionDecl.WrittenOut f d d') : StmtsWrittenOut .none f d.body d'.body := by
  cases h with
  | mk _ hbody => exact hbody

theorem words (h : FunctionDecl.WrittenOut f d d') :
    ∀ p ∈ d.parameters, TokenKind.ofWord p.lexeme = .identifier := by
  cases h with
  | mk hwords _ => exact hwords

end FunctionDecl.WrittenOut

section
variable {f : Shift}

theorem ExprsWrittenOut.forall₂ {es es' : List Expr} (h : ExprsWrittenOut f es es') :
    List.Forall₂ (Expr.WrittenOut f) es es' := by
  induction es generalizing es' with
  | nil =>
      cases h
      exact .nil
  | cons e es ih =>
      cases h with
      | cons he hes => exact .cons he (ih hes)

theorem ExprsWrittenOut.option {e e' : Option Expr} (h : ExprsWrittenOut f e.toList e'.toList) :
    Option.Rel (Expr.WrittenOut f) e e' := optionRel_of_forall₂ h.forall₂

theorem StmtsWrittenOut.forall₂ {j : Jumps} {ss ss' : List Stmt} (h : StmtsWrittenOut j f ss ss') :
    List.Forall₂ (Stmt.WrittenOut j f) ss ss' := by
  induction ss generalizing ss' with
  | nil =>
      cases h
      exact .nil
  | cons s ss ih =>
      cases h with
      | cons hs hss => exact .cons hs (ih hss)

theorem StmtsWrittenOut.option {j : Jumps} {s s' : Option Stmt}
    (h : StmtsWrittenOut j f s.toList s'.toList) : Option.Rel (Stmt.WrittenOut j f) s s' :=
  optionRel_of_forall₂ h.forall₂

theorem FunctionsWrittenOut.forall₂ {ds ds' : List FunctionDecl} (h : FunctionsWrittenOut f ds ds') :
    List.Forall₂ (FunctionDecl.WrittenOut f) ds ds' := by
  induction ds generalizing ds' with
  | nil =>
      cases h
      exact .nil
  | cons d ds ih =>
      cases h with
      | cons hd hds => exact .cons hd (ih hds)

end

/-! ### Trees as they are -/

/-- What is inside an unresolved node is unresolved. -/
theorem Node.Unresolved.inward {n : Node} (frames : List Frame) {q : Position} (h : n.Unresolved)
    (hi : Inner ⟨frames, n⟩ q) : q.node.Unresolved := Node.Every.inward h (.single hi)

/-- The uses in a node are the same with their hops shifted: nothing is shifted, or they have none. -/
def Node.Kept (f : Shift) (n : Node) : Prop := f = id ∨ n.Unresolved

namespace Node.Kept
variable {f : Shift} {n : Node}

theorem use (h : n.Kept f) {use : NameUse} (hu : n.use? = some use) : use.shift f = use := by
  rcases h with rfl | hraw
  · exact use.shift_id
  · exact NameUse.shift_of_none (hraw.here.2 use hu)

theorem inside (h : n.Kept f) : n.Kept f.inside :=
  h.imp_left fun hid => by rw [hid, Shift.inside_id]

theorem inner (frames : List Frame) {q : Position} (h : n.Kept f) (hi : Inner ⟨frames, n⟩ q) :
    q.node.Kept f := h.imp_right fun hraw => hraw.inward frames hi

theorem part {m : Node} (h : n.Kept f) (hm : m ∈ n.parts) : m.Kept f := h.inner [] (.part hm)

end Node.Kept

/-- Where no loop is around a statement, it has no jumps of its own. -/
theorem Node.Legal.not_holds {inFunction : Bool} {s t : Stmt}
    (h : Node.Legal false inFunction (.stmt s)) (ht : s.Holds false t) :
    Node.Legal false inFunction (.stmt t) := by
  induction ht with
  | refl => exact h
  | block hs _ ih =>
      cases h with
      | block hbody => exact ih (hbody _ hs)
  | thenBranch _ ih =>
      cases h with
      | «if» _ hthen _ => exact ih hthen
  | elseBranch _ ih =>
      cases h with
      | «if» _ _ helse => exact ih (helse _ rfl)
  | «while» hloops => cases hloops

/-- The jumps of a statement are among those it may have. -/
def Stmt.Jumping (j : Jumps) (s : Stmt) : Prop := ∀ c, s.Raises c → j.Allows c

/-- Where names are declared, the innermost scope is in both trees. -/
def Stmt.Standing (f : Shift) (s : Stmt) : Prop := f 0 = 0 ∨ s.declares = []

/-- What it takes for a node to be written out as it is. -/
def Node.Same : Node → Prop
  | .expr e => ∀ f, (Node.expr e).Named → (Node.expr e).Kept f → Expr.WrittenOut f e e
  | .stmt s => ∀ f j, (Node.stmt s).Named → (Node.stmt s).Kept f → s.Standing f → s.Jumping j →
      Stmt.WrittenOut j f s s
  | .function d => ∀ f, f 0 = 0 → (Node.function d).Named → (Node.function d).Kept f →
      FunctionDecl.WrittenOut f d d

namespace WrittenOut
variable {f : Shift} {j : Jumps}

theorem expressions {es : List Expr} (h : ∀ e ∈ es, Expr.WrittenOut f e e) :
    ExprsWrittenOut f es es := by
  induction es with
  | nil => exact .nil
  | cons e es ih =>
      have hrest := ih fun e he => h e (List.mem_cons_of_mem _ he)
      exact .cons (h e (List.mem_cons_self ..)) hrest

theorem statements {ss : List Stmt} (h : ∀ s ∈ ss, Stmt.WrittenOut j f s s) :
    StmtsWrittenOut j f ss ss := by
  induction ss with
  | nil => exact .nil
  | cons s ss ih =>
      have hrest := ih fun s hs => h s (List.mem_cons_of_mem _ hs)
      exact .cons (h s (List.mem_cons_self ..)) hrest

theorem functions {ds : List FunctionDecl} (h : ∀ d ∈ ds, FunctionDecl.WrittenOut f d d) :
    FunctionsWrittenOut f ds ds := by
  induction ds with
  | nil => exact .nil
  | cons d ds ih =>
      have hrest := ih fun d hd => h d (List.mem_cons_of_mem _ hd)
      exact .cons (h d (List.mem_cons_self ..)) hrest

end WrittenOut

namespace Node
variable {f : Shift}

theorem same_expr {e : Expr} (ih : ∀ m ∈ e.parts, m.Same) : (Node.expr e).Same := by
  intro f hnamed hkept
  have hpart : ∀ {e' : Expr}, Node.expr e' ∈ e.parts → Expr.WrittenOut f e' e' :=
    fun he => ih _ he f (hnamed.part he) (hkept.part he)
  cases e with
  | literal value => exact .literal value
  | grouping inner => exact .grouping (hpart (by simp [Expr.parts]))
  | name use =>
      have h := Expr.WrittenOut.name (f := f) use
      rwa [hkept.use rfl] at h
  | assign use value =>
      have hvalue : Expr.WrittenOut f value value := hpart (by simp [Expr.parts])
      have h := Expr.WrittenOut.assign (hnamed.here _ (List.mem_singleton_self _)) hvalue
      rwa [hkept.use rfl] at h
  | unary op token operand => exact .unary (hpart (by simp [Expr.parts]))
  | binary left op token right =>
      exact .binary (hpart (by simp [Expr.parts])) (hpart (by simp [Expr.parts]))
  | logical left op token right =>
      exact .logical (hpart (by simp [Expr.parts])) (hpart (by simp [Expr.parts]))
  | call callee paren arguments =>
      refine .call (hpart (by simp [Expr.parts])) (WrittenOut.expressions fun e he => hpart ?_)
      exact List.mem_cons_of_mem _ (List.mem_map_of_mem he)
  | get object name => exact .get (hpart (by simp [Expr.parts]))
  | set object name value =>
      exact .set (hnamed.here _ (List.mem_singleton_self _)) (hpart (by simp [Expr.parts]))
        (hpart (by simp [Expr.parts]))
  | this use =>
      have h := Expr.WrittenOut.this (f := f) use
      rwa [hkept.use rfl] at h
  | super use method =>
      have h := Expr.WrittenOut.super (f := f) use method
      rwa [hkept.use rfl] at h
  | lambda d =>
      have hmem : Node.function d ∈ (Expr.lambda d).parts := List.mem_singleton_self _
      exact .lambda (ih _ hmem f.inside rfl (hnamed.part hmem) (hkept.part hmem).inside)

/-- A branch declares nothing in the scope of its statement. -/
theorem Kept.standing {s : Stmt} (h : (Node.stmt s).Kept f) {t : Stmt}
    (ht : (Node.stmt s).Formed → t.declares = []) : t.Standing f :=
  h.imp (fun hid => by rw [hid, id_eq]) fun hraw => ht hraw.here.1

end Node

/-- A part that is in no inner loop. -/
theorem Stmt.Jumping.part {j : Jumps} {s t : Stmt} (h : s.Jumping j)
    (ht : ∀ u, t.Holds false u → s.Holds false u) : t.Jumping j := by
  intro c hc
  refine h c ?_
  cases c with
  | «return» v => trivial
  | «break» => exact hc.imp fun _ => ht _
  | «continue» => exact hc.imp fun _ => ht _

/-- Where no loop is around a statement, it may have no jumps. -/
theorem Node.Legal.jumping {inFunction : Bool} {s : Stmt}
    (h : Node.Legal false inFunction (.stmt s)) (j : Jumps) : s.Jumping j := by
  intro c hc
  cases c with
  | «return» v => trivial
  | «break» => exact hc.elim fun _ hk => nomatch h.not_holds hk
  | «continue» => exact hc.elim fun _ hk => nomatch h.not_holds hk

/-- What is legal where it stands is written out as it is. -/
theorem Node.Legal.same {inLoop inFunction : Bool} {n : Node} (h : Node.Legal inLoop inFunction n) :
    n.Same := by
  induction h with
  | expr _ ih => exact Node.same_expr ih
  | expression _ ih =>
      exact fun f j hnamed hkept _ _ => .expression
        (ih f (hnamed.part (List.mem_singleton_self _)) (hkept.part (List.mem_singleton_self _)))
  | print _ ih =>
      exact fun f j hnamed hkept _ _ => .print
        (ih f (hnamed.part (List.mem_singleton_self _)) (hkept.part (List.mem_singleton_self _)))
  | @var _ _ mutability name initial _ ih =>
      intro f j hnamed hkept hstanding _
      have hopen : f 0 = 0 := hstanding.resolve_right (List.cons_ne_nil _ _)
      refine .var hopen (hnamed.here _ (List.mem_singleton_self _))
        (WrittenOut.expressions fun e he => ?_)
      obtain rfl := Option.mem_toList.mp he
      exact ih e rfl f (hnamed.inner [] .initial) (hkept.inner [] .initial)
  | @block _ _ body _ ih =>
      intro f j hnamed hkept _ hjumping
      refine .block (WrittenOut.statements fun s hs => ?_)
      have hkept' : (Node.stmt s).Kept f := by
        obtain ⟨before, after, rfl⟩ := List.append_of_mem hs
        exact hkept.inner [] .block
      exact ih s hs f.inside j (hnamed.block s hs) hkept'.inside (.inl rfl)
        (hjumping.part fun u hu => .block hs hu)
  | @«if» _ _ condition thenBranch elseBranch _ _ _ ihc iht ihe =>
      intro f j hnamed hkept _ hjumping
      have hc : Node.expr condition ∈ (Node.stmt (.if condition thenBranch elseBranch)).parts :=
        List.mem_cons_self ..
      have ht : Node.stmt thenBranch ∈ (Node.stmt (.if condition thenBranch elseBranch)).parts :=
        List.mem_cons_of_mem _ (List.mem_cons_self ..)
      refine .if (ihc f (hnamed.part hc) (hkept.part hc)) ?_
        (WrittenOut.statements fun s hs => ?_)
      · exact iht f j (hnamed.part ht) (hkept.part ht) (hkept.standing fun hformed => hformed.1)
          (hjumping.part fun u hu => .thenBranch hu)
      · obtain rfl := Option.mem_toList.mp hs
        have he : Node.stmt s ∈ (Node.stmt (.if condition thenBranch (some s))).parts :=
          List.mem_cons_of_mem _ (List.mem_cons_of_mem _ (List.mem_singleton_self _))
        exact ihe s rfl f j (hnamed.part he) (hkept.part he)
          (hkept.standing fun hformed => hformed.2 s rfl)
          (hjumping.part fun u hu => .elseBranch hu)
  | @«while» _ _ condition body increment _ _ _ ihc ihb ihi =>
      intro f j hnamed hkept _ _
      have hc : Node.expr condition ∈ (Node.stmt (.while condition body increment)).parts :=
        List.mem_cons_self ..
      have hb : Node.stmt body ∈ (Node.stmt (.while condition body increment)).parts :=
        List.mem_cons_of_mem _ (List.mem_cons_self ..)
      refine .while (ihc f (hnamed.part hc) (hkept.part hc)) ?_
        (WrittenOut.expressions fun e he => ?_)
      · exact ihb f .all (hnamed.part hb) (hkept.part hb) (hkept.standing fun hformed => hformed)
          fun c _ => Jumps.all_allows c
      · obtain rfl := Option.mem_toList.mp he
        have hi : Node.expr e ∈ (Node.stmt (.while condition body (some e))).parts :=
          List.mem_cons_of_mem _ (List.mem_cons_of_mem _ (List.mem_singleton_self _))
        exact ihi e rfl f (hnamed.part hi) (hkept.part hi)
  | «break» => exact fun f j _ _ _ hjumping => .break (hjumping .break ⟨_, .refl⟩)
  | «continue» => exact fun f j _ _ _ hjumping => .continue (hjumping .continue ⟨_, .refl⟩)
  | @«return» _ keyword value _ ih =>
      intro f j hnamed hkept _ _
      refine .return (WrittenOut.expressions fun e he => ?_)
      obtain rfl := Option.mem_toList.mp he
      have hmem : Node.expr e ∈ (Node.stmt (.return keyword (some e))).parts :=
        List.mem_singleton_self _
      exact ih e rfl f (hnamed.part hmem) (hkept.part hmem)
  | declaration _ ih =>
      intro f j hnamed hkept hstanding _
      have hopen : f 0 = 0 := hstanding.resolve_right (List.cons_ne_nil _ _)
      exact .function hopen (hnamed.here _ (List.mem_singleton_self _))
        (ih f.inside rfl (hnamed.inner [] .declared) (hkept.inner [] .declared).inside)
  | @«class» _ _ name superclass methods _ ih =>
      intro f j hnamed hkept hstanding _
      have hopen : f 0 = 0 := hstanding.resolve_right (List.cons_ne_nil _ _)
      have hname := hnamed.here _ (List.mem_singleton_self _)
      cases superclass with
      | none =>
          refine .root hopen hname (WrittenOut.functions fun d hd => ?_)
          exact ih d hd _ rfl (hnamed.method d hd) (hkept.inner [] (.method hd)).inside.inside
      | some use =>
          have hmem : Node.expr (.name use) ∈ (Node.stmt (.class name (some use) methods)).parts :=
            List.mem_singleton_self _
          have h : Stmt.WrittenOut j f (.class name (some use) methods)
              (.class name (some (use.shift f)) methods) := by
            refine .derived hopen hname (WrittenOut.functions fun d hd => ?_)
            exact ih d hd _ rfl (hnamed.method d hd)
              (hkept.inner [] (.inherited hd)).inside.inside.inside
          rwa [(hkept.part hmem).use rfl] at h
  | importModule =>
      exact fun f j _ _ hstanding _ =>
        .importModule (hstanding.resolve_right (List.cons_ne_nil _ _))
  | @function _ _ d hlegal ih =>
      intro f hopen hnamed hkept
      obtain ⟨name, parameters, body⟩ := d
      refine .mk (fun p hp => hnamed.here _ (List.mem_map_of_mem hp))
        (WrittenOut.statements fun s hs => ?_)
      have hkept' : (Node.stmt s).Kept f := by
        obtain ⟨before, after, hbody⟩ := List.append_of_mem hs
        exact hkept.inner [] (.body hbody)
      exact ih s hs f .none (hnamed.body s hs) hkept' (.inl hopen) ((hlegal s hs).jumping .none)

end Treewalk
