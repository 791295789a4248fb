import Mathlib.Order.Defs.Unbundled
import Treewalk.Scoping.Resolve
import Treewalk.Proofs.Watching

/-!
# What name resolution restores

Every scope that is opened for a construct is closed again, and the function, class and loop around
it are put back, whether or not something is reported in between. A declaration touches the
innermost scope only, or the globals where no scope is open; an expression can declare nothing but
in scopes of its own.
-/
namespace Treewalk

namespace Scoping
variable {s t u : Scoping}

/-- In two states the same function, class and loop are around. -/
structure SameSurroundings (s t : Scoping) : Prop where
  function : t.function = s.function
  classContext : t.classContext = s.classContext
  inLoop : t.inLoop = s.inLoop

/-- A state is like an earlier one but for what was reported and recorded, and for the globals whose
initial values are being resolved. -/
structure SameScopes (s t : Scoping) : Prop extends SameSurroundings s t where
  scopes : t.scopes = s.scopes
  globals : t.globals = s.globals
  globalConstants : t.globalConstants = s.globalConstants

/-- A state differs from an earlier one at most by declarations in the innermost scope, or among the
globals if no scope is open. -/
structure OnlyInnermost (s t : Scoping) : Prop extends SameSurroundings s t where
  height : t.scopes.length = s.scopes.length
  below : t.scopes.tail = s.scopes.tail
  globals : s.scopes ≠ [] → t.globals = s.globals
  globalConstants : s.scopes ≠ [] → t.globalConstants = s.globalConstants

namespace SameSurroundings

theorem refl (s : Scoping) : s.SameSurroundings s := ⟨rfl, rfl, rfl⟩

theorem trans (h : s.SameSurroundings t) (h' : t.SameSurroundings u) : s.SameSurroundings u where
  function := h'.function.trans h.function
  classContext := h'.classContext.trans h.classContext
  inLoop := h'.inLoop.trans h.inLoop

end SameSurroundings

instance : IsPreorder Scoping SameScopes where
  refl s := { SameSurroundings.refl s with scopes := rfl, globals := rfl, globalConstants := rfl }
  trans _ _ _ h h' :=
    { h.toSameSurroundings.trans h'.toSameSurroundings with
      scopes := h'.scopes.trans h.scopes
      globals := h'.globals.trans h.globals
      globalConstants := h'.globalConstants.trans h.globalConstants }

theorem OnlyInnermost.open_iff (h : s.OnlyInnermost t) : t.scopes ≠ [] ↔ s.scopes ≠ [] := by
  rw [← List.length_pos_iff, ← List.length_pos_iff, h.height]

instance : IsPreorder Scoping OnlyInnermost where
  refl s :=
    { SameSurroundings.refl s with
      height := rfl, below := rfl, globals := fun _ => rfl, globalConstants := fun _ => rfl }
  trans _ _ _ h h' :=
    { h.toSameSurroundings.trans h'.toSameSurroundings with
      height := h'.height.trans h.height
      below := h'.below.trans h.below
      globals := fun hs => (h'.globals (h.open_iff.mpr hs)).trans (h.globals hs)
      globalConstants := fun hs =>
        (h'.globalConstants (h.open_iff.mpr hs)).trans (h.globalConstants hs) }

theorem SameScopes.onlyInnermost (h : s.SameScopes t) : s.OnlyInnermost t :=
  { h.toSameSurroundings with
    height := congrArg List.length h.scopes
    below := congrArg List.tail h.scopes
    globals := fun _ => h.globals
    globalConstants := fun _ => h.globalConstants }

theorem sameScopes_report (s : Scoping) (token : Token) (error : StaticError) :
    s.SameScopes (s.report token error) := ⟨⟨rfl, rfl, rfl⟩, rfl, rfl, rfl⟩

theorem OnlyInnermost.outside (h : s.SameSurroundings t) (hs : s.scopes = [])
    (ht : t.scopes = []) : s.OnlyInnermost t :=
  { h with
    height := by rw [hs, ht]
    below := by rw [hs, ht]
    globals := fun hopen => (hopen hs).elim
    globalConstants := fun hopen => (hopen hs).elim }

theorem OnlyInnermost.innermost {inner inner' : StaticScope} {outer : List StaticScope}
    (h : s.SameSurroundings t) (hs : s.scopes = inner :: outer) (ht : t.scopes = inner' :: outer)
    (hglobals : t.globals = s.globals) (hconstants : t.globalConstants = s.globalConstants) :
    s.OnlyInnermost t :=
  { h with
    height := by rw [hs, ht, List.length_cons, List.length_cons]
    below := by rw [hs, ht, List.tail_cons, List.tail_cons]
    globals := fun _ => hglobals
    globalConstants := fun _ => hconstants }

theorem onlyInnermost_declare (s : Scoping) (token : Token) (name : String) :
    s.OnlyInnermost (s.declare token name) := by
  unfold declare
  split
  case h_1 hs =>
    split
    · exact (sameScopes_report s token _).onlyInnermost
    · exact refl_of OnlyInnermost s
  case h_2 inner outer hs =>
    split
    · exact .innermost ⟨rfl, rfl, rfl⟩ hs rfl rfl rfl
    · exact .innermost ⟨rfl, rfl, rfl⟩ hs rfl rfl rfl

theorem onlyInnermost_define (s : Scoping) (name : String) : s.OnlyInnermost (s.define name) := by
  unfold define
  split
  case h_1 hs => exact .outside ⟨rfl, rfl, rfl⟩ hs hs
  case h_2 inner outer hs => exact .innermost ⟨rfl, rfl, rfl⟩ hs rfl rfl rfl

theorem onlyInnermost_setMutability (s : Scoping) (name : String) (mutability : Mutability) :
    s.OnlyInnermost (s.setMutability name mutability) := by
  unfold setMutability
  dsimp only
  split
  case h_1 hs => exact .outside ⟨rfl, rfl, rfl⟩ hs hs
  case h_2 inner outer hs => exact .innermost ⟨rfl, rfl, rfl⟩ hs rfl rfl rfl

/-- What was declared in a scope of its own is gone when the scope is left. -/
theorem OnlyInnermost.leave {names : List String} (h : (s.enter names).OnlyInnermost t) :
    s.SameScopes t.leave where
  function := h.function
  classContext := h.classContext
  inLoop := h.inLoop
  scopes := h.below
  globals := h.globals (List.cons_ne_nil _ _)
  globalConstants := h.globalConstants (List.cons_ne_nil _ _)

end Scoping

namespace Resolve
open Scoping
variable {α β : Type}

/-- Wherever the computation starts, it ends in a state that stands in the relation to the first
one, unless it is cut short. -/
def Leads (Go : Scoping → Scoping → Prop) (cut : Prop) (p : Resolve α) : Prop := ∀ s,
  match p s with
  | .ok _ t => Go s t
  | .error _ _ => cut

namespace Leads
variable {Go : Scoping → Scoping → Prop} {cut cut' : Prop} {p : Resolve α}

theorem ended {a : α} {s t : Scoping} (h : Leads Go cut p) (hp : p s = .ok a t) : Go s t := by
  have hs := h s
  rw [hp] at hs
  exact hs

theorem ends (h : Leads Go cut p) (hcut : ¬cut) (s : Scoping) : ∃ a t, p s = .ok a t := by
  have hs := h s
  cases hp : p s with
  | ok a t => exact ⟨a, t, rfl⟩
  | error e t =>
      rw [hp] at hs
      exact (hcut hs).elim

theorem weaken (h : Leads Go cut p) (hcut : cut → cut') : Leads Go cut' p := by
  intro s
  have hs := h s
  cases hp : p s with
  | ok a t =>
      rw [hp] at hs
      exact hs
  | error e t =>
      rw [hp] at hs
      exact hcut hs

theorem onlyInnermost (h : Leads SameScopes cut p) : Leads OnlyInnermost cut p := by
  intro s
  have hs := h s
  cases hp : p s with
  | ok a t =>
      rw [hp] at hs
      exact hs.onlyInnermost
  | error e t =>
      rw [hp] at hs
      exact hs

theorem step {f : Scoping → Scoping} (h : ∀ s, Go s (f s)) : Leads Go cut (modify f) := h

theorem throw (h : cut) : Leads Go cut (MonadExcept.throw () : Resolve α) := fun _ => h

theorem getting {f : Scoping → Resolve α} (hf : ∀ s, Leads Go cut (f s)) :
    Leads Go cut (get >>= f) := fun s => hf s s

theorem bind [IsTrans Scoping Go] {f : α → Resolve β} (hp : Leads Go cut p)
    (hf : ∀ a, Leads Go cut (f a)) : Leads Go cut (p >>= f) := by
  intro s
  have hs := hp s
  change match EStateM.bind p f s with
    | .ok _ u => Go s u
    | .error _ _ => cut
  unfold EStateM.bind
  cases hr : p s with
  | error e t =>
      rw [hr] at hs
      exact hs
  | ok a t =>
      rw [hr] at hs
      have ht := hf a t
      dsimp only
      cases hr' : f a t with
      | error e u =>
          rw [hr'] at ht
          exact ht
      | ok b u =>
          rw [hr'] at ht
          exact trans_of Go hs ht

variable [IsPreorder Scoping Go]

theorem pure (a : α) : Leads Go cut (Pure.pure a : Resolve α) := refl_of Go

theorem mapM {f : α → Resolve β} {as : List α} (hf : ∀ a ∈ as, Leads Go cut (f a)) :
    Leads Go cut (as.mapM f) := by
  induction as with
  | nil => exact pure []
  | cons a as ih =>
      rw [List.mapM_cons]
      have hrest := ih fun a ha => hf a (List.mem_cons_of_mem _ ha)
      exact bind (hf a (List.mem_cons_self ..)) fun b => bind hrest fun bs => pure (b :: bs)

theorem optional {f : α → Resolve β} {o : Option α} (hf : ∀ a ∈ o, Leads Go cut (f a)) :
    Leads Go cut (o.mapM f) := by
  cases o with
  | none => exact pure none
  | some a => exact bind (hf a rfl) fun b => pure (some b)

theorem forM {f : α → Resolve Unit} (hf : ∀ a, Leads Go cut (f a)) (as : List α) :
    Leads Go cut (as.forM f) := by
  induction as with
  | nil => exact pure ()
  | cons a as ih => exact bind (hf a) fun _ => ih

end Leads

theorem report_restores {cut : Prop} (token : Token) (error : StaticError) :
    Leads SameScopes cut (report token error) := .step fun s => sameScopes_report s token error

/-! ### Uses -/

/-- Whether something is reported on the way makes no difference. -/
theorem checking_leads {Go : Scoping → Scoping → Prop} [IsPreorder Scoping Go] {cut c : Prop}
    [Decidable c] {token : Token} {error : StaticError} {p : Resolve α}
    (hreport : Leads Go cut (report token error)) (hp : Leads Go cut p) :
    Leads Go cut (if c then report token error >>= fun _ => p else p) := by
  split
  · exact .bind hreport fun _ => hp
  · exact hp

section
variable {cut : Prop}

theorem record_restores (form : UseForm) (use : NameUse) (hops : Nat) :
    Leads SameScopes cut (record form use hops) :=
  .bind (.step fun _ => ⟨⟨rfl, rfl, rfl⟩, rfl, rfl, rfl⟩) fun _ => .pure _

theorem lookUp_restores (form : UseForm) (use : NameUse) :
    Leads SameScopes cut (lookUp form use) := by
  refine .getting fun s => ?_
  split
  · exact record_restores _ _ _
  · exact .pure use

theorem readOuter_restores (use : NameUse) (outer : List StaticScope) :
    Leads SameScopes cut (readOuter use outer) := by
  unfold readOuter
  dsimp only
  split
  · exact record_restores _ _ _
  · refine .getting fun s => ?_
    split
    · exact .bind (.step fun _ => ⟨⟨rfl, rfl, rfl⟩, rfl, rfl, rfl⟩) fun _ => .pure use
    · exact .bind (report_restores _ _) fun _ => .pure use

theorem read_restores (use : NameUse) : Leads SameScopes cut (read use) := by
  refine .getting fun s => ?_
  split
  · split
    · exact readOuter_restores _ _
    · exact lookUp_restores _ _
  · split
    · exact .bind (report_restores _ _) fun _ => .pure use
    · exact .pure use

theorem checkFieldWrite_restores (object : Expr) (name : Token) :
    Leads SameScopes cut (checkFieldWrite object name) := by
  unfold checkFieldWrite
  split
  · refine .getting fun s => ?_
    split
    · exact report_restores _ _
    · exact .pure ()
  · exact .pure ()

theorem checkSuper_restores (keyword : Token) : Leads SameScopes cut (checkSuper keyword) := by
  refine .getting fun s => ?_
  split
  · exact report_restores _ _
  · exact report_restores _ _
  · exact .pure ()

theorem checkReturn_restores (keyword : Token) : Leads SameScopes cut (checkReturn keyword) := by
  refine .getting fun s => ?_
  split
  · exact report_restores _ _
  · exact .pure ()

theorem bind_onlyInnermost (token : Token) (name : String) :
    Leads OnlyInnermost cut (Resolve.bind token name) :=
  .step fun s => trans_of OnlyInnermost (onlyInnermost_declare s token name)
    (onlyInnermost_define _ name)

end

/-! ### Constructs -/

section
variable {cut : Prop} {p : Resolve α}

/-- A state that is changed before a computation and mended after it. -/
theorem around_leads {Go Go' : Scoping → Scoping → Prop} {f : Scoping → Scoping}
    {g : Scoping → Scoping → Scoping} (hp : Leads Go cut p)
    (hmend : ∀ s t, Go (f s) t → Go' s (g s t)) :
    Leads Go' cut (do
      let before ← get
      modify f
      let a ← p
      modify (g before)
      return a) := by
  intro s
  have hs := hp (f s)
  change match EStateM.bind p (fun a => modify (g s) >>= fun _ => Pure.pure a) (f s) with
    | .ok _ u => Go' s u
    | .error _ _ => cut
  unfold EStateM.bind
  cases hr : p (f s) with
  | error e t =>
      rw [hr] at hs
      exact hs
  | ok a t =>
      rw [hr] at hs
      exact hmend s t hs

theorem inScope_restores (names : List String) (hp : Leads OnlyInnermost cut p) :
    Leads SameScopes cut (inScope names p) :=
  around_leads (f := fun s => s.enter names) (g := fun _ => Scoping.leave) hp
    fun _ _ h => h.leave

theorem inFunction_restores (context : FunctionContext) (hp : Leads SameScopes cut p) :
    Leads SameScopes cut (inFunction context p) :=
  around_leads hp fun _ _ h =>
    { function := rfl, inLoop := rfl, classContext := h.classContext
      scopes := h.scopes, globals := h.globals, globalConstants := h.globalConstants }

theorem inLoop_onlyInnermost (hp : Leads OnlyInnermost cut p) :
    Leads OnlyInnermost cut (inLoop p) :=
  around_leads hp fun _ _ h =>
    { h with inLoop := rfl }

theorem inClass_onlyInnermost (context : ClassContext) (hp : Leads OnlyInnermost cut p) :
    Leads OnlyInnermost cut (inClass context p) :=
  around_leads hp fun _ _ h =>
    { h with classContext := rfl }

theorem initializing_restores (name : String) (hp : Leads SameScopes cut p) :
    Leads SameScopes cut (initializing name p) := by
  have hdone : Leads SameScopes cut (do
      let a ← p
      modify fun s => { s with initializing := s.initializing.filter (· ≠ name) }
      return a) :=
    .bind hp fun a => .bind (.step fun _ => ⟨⟨rfl, rfl, rfl⟩, rfl, rfl, rfl⟩) fun _ => .pure a
  refine .getting fun s => ?_
  split
  · exact .bind (.step fun _ => ⟨⟨rfl, rfl, rfl⟩, rfl, rfl, rfl⟩) fun _ => hdone
  · exact hdone

end

/-! ### Trees -/

/-- What resolution restores at a nesting level. It is cut short only where a tree is larger than
there are levels. -/
structure LevelRestores (levels : Nat) : Prop where
  expression : ∀ e, Leads SameScopes (levels < sizeOf e) (expression levels e)
  statement : ∀ st, Leads OnlyInnermost (levels < sizeOf st) (statement levels st)
  method : ∀ f, Leads SameScopes (levels < sizeOf f + 1) (method levels f)
  functionBody : ∀ context f, Leads SameScopes (levels < sizeOf f) (functionBody levels context f)

namespace LevelRestores
variable {levels size : Nat} (ih : LevelRestores levels)
include ih

/-! Parts of a tree of the given size. -/

theorem expression_below {e : Expr} (he : sizeOf e < size) :
    Leads SameScopes (levels + 1 < size) (Resolve.expression levels e) :=
  (ih.expression e).weaken fun h => by omega

theorem statement_below {st : Stmt} (hst : sizeOf st < size) :
    Leads OnlyInnermost (levels + 1 < size) (Resolve.statement levels st) :=
  (ih.statement st).weaken fun h => by omega

theorem functionBody_below {context : FunctionContext} {f : FunctionDecl} (hf : sizeOf f < size) :
    Leads SameScopes (levels + 1 < size) (Resolve.functionBody levels context f) :=
  (ih.functionBody context f).weaken fun h => by omega

theorem expression_succ (e : Expr) :
    Leads SameScopes (levels + 1 < sizeOf e) (Resolve.expression (levels + 1) e) := by
  unfold Resolve.expression
  cases e with
  | literal value => exact .pure _
  | grouping inner =>
      rw [Expr.grouping.sizeOf_spec]
      exact .bind (ih.expression_below (by omega)) fun _ => .pure _
  | name use => exact .bind (read_restores use) fun _ => .pure _
  | assign use value =>
      rw [Expr.assign.sizeOf_spec]
      refine .bind (ih.expression_below (by omega)) fun value => .getting fun s => ?_
      refine checking_leads (report_restores _ _) ?_
      exact .bind (lookUp_restores .assign use) fun _ => .pure _
  | unary op token operand =>
      rw [Expr.unary.sizeOf_spec]
      exact .bind (ih.expression_below (by omega)) fun _ => .pure _
  | binary left op token right =>
      rw [Expr.binary.sizeOf_spec]
      refine .bind (ih.expression_below (by omega)) fun left => ?_
      exact .bind (ih.expression_below (by omega)) fun right => .pure _
  | logical left op token right =>
      rw [Expr.logical.sizeOf_spec]
      refine .bind (ih.expression_below (by omega)) fun left => ?_
      exact .bind (ih.expression_below (by omega)) fun right => .pure _
  | call callee paren arguments =>
      rw [Expr.call.sizeOf_spec]
      refine .bind (ih.expression_below (by omega)) fun callee => ?_
      refine .bind (.mapM fun e he => ih.expression_below ?_) fun arguments => .pure _
      have hlt := List.sizeOf_lt_of_mem he
      omega
  | get object name =>
      rw [Expr.get.sizeOf_spec]
      exact .bind (ih.expression_below (by omega)) fun _ => .pure _
  | set object name value =>
      rw [Expr.set.sizeOf_spec]
      refine .bind (ih.expression_below (by omega)) fun value => ?_
      refine .bind (checkFieldWrite_restores object name) fun _ => ?_
      exact .bind (ih.expression_below (by omega)) fun object => .pure _
  | this use =>
      refine .getting fun s => ?_
      split
      · exact .bind (report_restores _ _) fun _ => .pure _
      · exact .bind (lookUp_restores .this use) fun _ => .pure _
  | super use method =>
      refine .bind (checkSuper_restores _) fun _ => ?_
      exact .bind (lookUp_restores .super use) fun _ => .pure _
  | lambda function =>
      rw [Expr.lambda.sizeOf_spec]
      exact .bind (ih.functionBody_below (by omega)) fun _ => .pure _

theorem methods_below {methods : List FunctionDecl} (hmethods : sizeOf methods < size) :
    Leads SameScopes (levels + 1 < size)
      (inScope ["this"] (methods.mapM (Resolve.method levels))) := by
  refine inScope_restores _ (.onlyInnermost (.mapM fun f hf => (ih.method f).weaken fun h => ?_))
  have hlt := List.sizeOf_lt_of_mem hf
  omega

/-- Parts that may be missing. -/
theorem optional_below {o : Option Expr} (ho : sizeOf o < size) :
    Leads SameScopes (levels + 1 < size) (o.mapM (Resolve.expression levels)) := by
  refine .optional fun e he => ih.expression_below ?_
  cases he
  rw [Option.some.sizeOf_spec] at ho
  omega

theorem statement_succ (st : Stmt) :
    Leads OnlyInnermost (levels + 1 < sizeOf st) (Resolve.statement (levels + 1) st) := by
  unfold Resolve.statement
  cases st with
  | expression e =>
      rw [Stmt.expression.sizeOf_spec]
      exact .bind (.onlyInnermost (ih.expression_below (by omega))) fun _ => .pure _
  | print e =>
      rw [Stmt.print.sizeOf_spec]
      exact .bind (.onlyInnermost (ih.expression_below (by omega))) fun _ => .pure _
  | var mutability name initial =>
      rw [Stmt.var.sizeOf_spec]
      refine .bind (.step fun s => onlyInnermost_declare s _ _) fun _ => ?_
      refine .bind (.optional fun e he => .onlyInnermost (initializing_restores _ ?_)) fun _ => ?_
      · cases he
        rw [Option.some.sizeOf_spec]
        exact ih.expression_below (by omega)
      · refine .bind (.step fun s => ?_) fun _ => .pure _
        exact trans_of OnlyInnermost (onlyInnermost_define s _) (onlyInnermost_setMutability _ _ _)
  | block body =>
      rw [Stmt.block.sizeOf_spec]
      refine .bind (.onlyInnermost (inScope_restores _ (.mapM fun st hst => ?_))) fun _ => .pure _
      have hlt := List.sizeOf_lt_of_mem hst
      exact ih.statement_below (by omega)
  | «if» condition thenBranch elseBranch =>
      rw [Stmt.if.sizeOf_spec]
      refine .bind (.onlyInnermost (ih.expression_below (by omega))) fun condition => ?_
      refine .bind (ih.statement_below (by omega)) fun thenBranch => ?_
      refine .bind (.optional fun st hst => ?_) fun _ => .pure _
      cases hst
      rw [Option.some.sizeOf_spec]
      exact ih.statement_below (by omega)
  | «while» condition body increment =>
      rw [Stmt.while.sizeOf_spec]
      refine inLoop_onlyInnermost ?_
      refine .bind (.onlyInnermost (ih.expression_below (by omega))) fun condition => ?_
      refine .bind (ih.statement_below (by omega)) fun body => ?_
      exact .bind (.onlyInnermost (ih.optional_below (by omega))) fun _ => .pure _
  | «break» keyword =>
      exact .getting fun s => checking_leads (.onlyInnermost (report_restores _ _)) (.pure _)
  | «continue» keyword =>
      exact .getting fun s => checking_leads (.onlyInnermost (report_restores _ _)) (.pure _)
  | «return» keyword value =>
      rw [Stmt.return.sizeOf_spec]
      refine .bind (.onlyInnermost (checkReturn_restores keyword)) fun _ => .getting fun s => ?_
      refine checking_leads (.onlyInnermost (report_restores _ _)) ?_
      exact .bind (.onlyInnermost (ih.optional_below (by omega))) fun _ => .pure _
  | function f =>
      rw [Stmt.function.sizeOf_spec]
      have hbody : Leads OnlyInnermost (levels + 1 < 1 + sizeOf f) (do
          return Stmt.function (← Resolve.functionBody levels .function f)) :=
        .bind (.onlyInnermost (ih.functionBody_below (by omega))) fun _ => .pure _
      dsimp only
      split
      · exact .bind (bind_onlyInnermost _ _) fun _ => hbody
      · exact hbody
  | «class» name superclass methods =>
      rw [Stmt.class.sizeOf_spec]
      cases superclass with
      | none =>
          refine inClass_onlyInnermost _ (.bind (bind_onlyInnermost _ _) fun _ => ?_)
          exact .bind (.onlyInnermost (ih.methods_below (by omega))) fun _ => .pure _
      | some superclass =>
          refine inClass_onlyInnermost _ (.bind (bind_onlyInnermost _ _) fun _ => ?_)
          refine checking_leads (.onlyInnermost (report_restores _ _)) ?_
          refine .bind (.onlyInnermost (read_restores superclass)) fun _ => ?_
          refine .bind (.onlyInnermost (inScope_restores _ (.onlyInnermost ?_))) fun _ => .pure _
          exact ih.methods_below (by omega)
  | importModule keyword name as =>
      dsimp only
      split
      · exact .bind (.onlyInnermost (report_restores _ _)) fun _ => .pure _
      · exact .bind (bind_onlyInnermost _ _) fun _ => .pure _

theorem functionBody_succ (context : FunctionContext) (f : FunctionDecl) :
    Leads SameScopes (levels + 1 < sizeOf f) (Resolve.functionBody (levels + 1) context f) := by
  obtain ⟨name, parameters, body⟩ := f
  rw [FunctionDecl.mk.sizeOf_spec]
  refine inFunction_restores context (inScope_restores _ ?_)
  refine .bind (.forM (fun p => bind_onlyInnermost p p.lexeme) parameters) fun _ => ?_
  refine .bind (.mapM fun st hst => ?_) fun _ => .pure _
  have hlt := List.sizeOf_lt_of_mem hst
  exact ih.statement_below (by omega)

end LevelRestores

theorem levelRestores (levels : Nat) : LevelRestores levels := by
  -- Whether the levels suffice is part of the statement, as only trees larger than them run out.
  induction levels with
  | zero =>
      exact
        { expression := fun e => .throw (by cases e <;> grind)
          statement := fun st => .throw (by cases st <;> grind)
          method := fun f => .throw (Nat.succ_pos _)
          functionBody := fun _ f => .throw (by cases f; grind) }
  | succ levels ih =>
      exact
        { expression := ih.expression_succ
          statement := ih.statement_succ
          method := fun f => (ih.functionBody _ f).weaken fun h => by omega
          functionBody := ih.functionBody_succ }

end Resolve

/-- Name resolution restores its state. After an expression the open scopes and the globals are as
before; after a statement at most the innermost scope has changed, or the globals where no scope is
open. Function, class and loop around are the same after both. With as many levels as a tree is
large resolution ends, whatever it reports. -/
theorem resolution_restores (levels : Nat) (s : Scoping) :
    (∀ e, (∀ e' t, Resolve.expression levels e s = .ok e' t → s.SameScopes t) ∧
      (sizeOf e ≤ levels → ∃ e' t, Resolve.expression levels e s = .ok e' t)) ∧
    (∀ st, (∀ st' t, Resolve.statement levels st s = .ok st' t → s.OnlyInnermost t) ∧
      (sizeOf st ≤ levels → ∃ st' t, Resolve.statement levels st s = .ok st' t)) := by
  have hlevel := Resolve.levelRestores levels
  constructor
  · intro e
    constructor
    · intro e' t hr
      exact (hlevel.expression e).ended hr
    · intro hlarge
      exact (hlevel.expression e).ends (Nat.not_lt.mpr hlarge) s
  · intro st
    constructor
    · intro st' t hr
      exact (hlevel.statement st).ended hr
    · intro hlarge
      exact (hlevel.statement st).ends (Nat.not_lt.mpr hlarge) s

/-- In a loop in an initializer, a lambda names two parameters alike, declares a constant of that
name and breaks: three errors are reported, and nothing of it is left. -/
theorem resolution_restores_lambda :
    let x : Token := { kind := .identifier, lexeme := "x", line := 1 }
    let body : List Stmt := [.var .constant x (some (.name { name := x })), .break x]
    let e : Expr := .lambda (.mk none [x, x] body)
    let scope : StaticScope := { names := ⟨[("x", true)]⟩, constants := ["x"] }
    let s : Scoping := { scopes := [scope, {}], function := .initializer, inLoop := true }
    (∃ e' t, Resolve.expression 4 e s = .ok e' t ∧ t.notices.size = 3 ∧ s.SameScopes t) ∧
    (∃ st' t, Resolve.statement 4 (.var .variable x none) s = .ok st' t ∧
      s.isConstant "x" = true ∧ t.isConstant "x" = false ∧ s.OnlyInnermost t) ∧
    ∃ e' t, Resolve.expression (sizeOf e) e s = .ok e' t := by
  intro x body e scope s
  refine ⟨⟨_, _, rfl, rfl, ((resolution_restores 4 s).1 e).1 _ _ rfl⟩, ?_, ?_⟩
  · have hdeclared := ((resolution_restores 4 s).2 (.var .variable x none)).1 _ _ rfl
    exact ⟨_, _, rfl, by decide, by decide, hdeclared⟩
  · exact ((resolution_restores (sizeOf e) s).1 e).2 (Nat.le_refl _)

end Treewalk
