import Treewalk.Proofs.Control.Legal
import Treewalk.Proofs.Scopes.Bare

/-!
# Constants in later units

Name resolution without errors changes nothing in a tree but hops. So what an accepted unit leaves
alone can be read off its text: it neither declares nor, where no frame knows the name, assigns to any
of the constants that it was prepared with.
-/
namespace Treewalk

namespace Resolve
open Scoping
variable {α β γ : Type}

namespace Checks

theorem mapM_map {f : β → Resolve α} {g : α → γ} {h : β → γ}
    (hf : ∀ b, Checks (fun _ _ a => g a = h b) (f b)) (bs : List β) :
    Checks (fun _ _ as => as.map g = bs.map h) (bs.mapM f) := by
  induction bs with
  | nil => exact pure fun _ _ => rfl
  | cons b bs ih =>
      rw [List.mapM_cons]
      refine bind (hf b) fun a => bind ih fun as => pure fun _ _ has ha => ?_
      rw [List.map_cons, List.map_cons, ha, has]

theorem optional_map {f : β → Resolve α} {g : α → γ} {h : β → γ}
    (hf : ∀ b, Checks (fun _ _ a => g a = h b) (f b)) (o : Option β) :
    Checks (fun _ _ o' => o'.map g = o.map h) (o.mapM f) := by
  cases o with
  | none => exact pure fun _ _ => rfl
  | some b => exact bind (hf b) fun a => pure fun _ _ ha => congrArg some ha

end Checks

/-- Name resolution at a nesting level changes nothing but hops. -/
structure LevelBare (levels : Nat) : Prop where
  expression : ∀ e, Checks (fun _ _ e' => e'.bare = e.bare) (expression levels e)
  statement : ∀ st, Checks (fun _ _ st' => st'.bare = st.bare) (statement levels st)
  method : ∀ f, Checks (fun _ _ f' => f'.bare = f.bare) (method levels f)
  functionBody : ∀ context f, context ≠ .none →
    Checks (fun _ _ f' => f'.bare = f.bare) (functionBody levels context f)

namespace LevelBare
variable {levels : Nat}

theorem expression_succ (ih : LevelBare levels) (e : Expr) :
    Checks (fun _ _ e' => e'.bare = e.bare) (Resolve.expression (levels + 1) e) := by
  unfold Resolve.expression
  cases e with
  | literal value => exact .pure fun _ _ => rfl
  | grouping inner =>
      refine .bind (ih.expression inner) fun inner' => .pure fun _ _ h => ?_
      rw [Expr.bare, Expr.bare, h]
  | name use =>
      refine .bind (.read use) fun use' => .pure fun _ _ h => ?_
      rw [Expr.bare, Expr.bare, NameUse.bare_of_name h]
  | assign use value =>
      refine .bind (ih.expression value) fun value' => ?_
      refine .checking (R := fun _ _ => True) (fun _ _ => trivial) ?_
      refine .bind (.lookUp .assign use) fun use' => .pure fun _ _ hu _ hv => ?_
      rw [Expr.bare, Expr.bare, NameUse.bare_of_name hu, hv]
  | unary op token operand =>
      refine .bind (ih.expression operand) fun operand' => .pure fun _ _ h => ?_
      rw [Expr.bare, Expr.bare, h]
  | binary left op token right =>
      refine .bind (ih.expression left) fun left' => .bind (ih.expression right) fun right' =>
        .pure fun _ _ hr hl => ?_
      rw [Expr.bare, Expr.bare, hl, hr]
  | logical left op token right =>
      refine .bind (ih.expression left) fun left' => .bind (ih.expression right) fun right' =>
        .pure fun _ _ hr hl => ?_
      rw [Expr.bare, Expr.bare, hl, hr]
  | call callee paren arguments =>
      refine .bind (ih.expression callee) fun callee' =>
        .bind (.mapM_map ih.expression arguments) fun arguments' => .pure fun _ _ has hc => ?_
      rw [Expr.bare, Expr.bare, hc, bareExprs_eq, bareExprs_eq, has]
  | get object name =>
      refine .bind (ih.expression object) fun object' => .pure fun _ _ h => ?_
      rw [Expr.bare, Expr.bare, h]
  | set object name value =>
      refine .bind (ih.expression value) fun value' => .bind (.checkFieldWrite object name) fun _ => ?_
      refine .bind (ih.expression object) fun object' => .pure fun _ _ ho _ hv => ?_
      rw [Expr.bare, Expr.bare, ho, hv]
  | this use =>
      refine .this fun _ _ use' h => ?_
      rw [Expr.bare, Expr.bare, NameUse.bare_of_name h]
  | super use method =>
      refine .bind (.checkSuper _) fun _ => .bind (.lookUp .super use) fun use' =>
        .pure fun _ _ h _ => ?_
      rw [Expr.bare, Expr.bare, NameUse.bare_of_name h]
  | lambda function =>
      refine .bind (ih.functionBody .lambda function (by decide)) fun function' =>
        .pure fun _ _ h => ?_
      rw [Expr.bare, Expr.bare, h]

/-! What is left of a declaration when its name has been declared. -/

theorem initial (ih : LevelBare levels) (mutability : Mutability) (name : Token)
    (initial : Option Expr) :
    Checks (fun _ _ (st' : Stmt) => st'.bare = (Stmt.var mutability name initial).bare) (do
      let initial ← initial.mapM fun e => initializing name.lexeme (Resolve.expression levels e)
      modify fun s => (s.define name.lexeme).setMutability name.lexeme mutability
      return Stmt.var mutability name initial) := by
  refine .bind (.optional_map (fun e => .initializing (ih.expression e)) initial) fun initial' => ?_
  refine .bind (.define name.lexeme mutability) fun _ => .pure fun _ _ _ h => ?_
  rw [Stmt.bare, Stmt.bare, bareExpr?_eq, bareExpr?_eq, h]

theorem declaration (ih : LevelBare levels) (f : FunctionDecl) :
    Checks (fun _ _ (st' : Stmt) => st'.bare = (Stmt.function f).bare) (do
      return Stmt.function (← Resolve.functionBody levels .function f)) := by
  refine .bind (ih.functionBody .function f (by decide)) fun f' => .pure fun _ _ h => ?_
  rw [Stmt.bare, Stmt.bare, h]

theorem methods (ih : LevelBare levels) (name : Token) (methods : List FunctionDecl) :
    Checks (fun _ _ (st' : Stmt) => st'.bare = (Stmt.class name none methods).bare) (do
      return Stmt.class name none
        (← Resolve.inScope ["this"] (methods.mapM (Resolve.method levels)))) := by
  refine .bind (.inScope (.mapM_map ih.method methods)) fun methods' => .pure fun _ _ h => ?_
  rw [Stmt.bare, Stmt.bare, bareFunctions_eq, bareFunctions_eq, h]

theorem inherited (ih : LevelBare levels) (name : Token) (superclass : NameUse)
    (methods : List FunctionDecl) :
    Checks (fun _ _ (st' : Stmt) => st'.bare = (Stmt.class name (some superclass) methods).bare) (do
      if superclass.name.lexeme = name.lexeme then
        Resolve.report superclass.name .selfInheritance
      let superclass ← Resolve.read superclass
      return Stmt.class name superclass
        (← Resolve.inScope ["super"]
          (Resolve.inScope ["this"] (methods.mapM (Resolve.method levels))))) := by
  refine .reporting (.bind (.read superclass) fun superclass' =>
    .bind (.inScope (.inScope (.mapM_map ih.method methods))) fun methods' =>
      .pure fun _ _ h hu => ?_)
  rw [Stmt.bare, Stmt.bare, bareFunctions_eq, bareFunctions_eq, h, Option.map_some,
    Option.map_some, NameUse.bare_of_name hu]

theorem statement_succ (ih : LevelBare levels) (st : Stmt) :
    Checks (fun _ _ st' => st'.bare = st.bare) (Resolve.statement (levels + 1) st) := by
  unfold Resolve.statement
  cases st with
  | expression e =>
      refine .bind (ih.expression e) fun e' => .pure fun _ _ h => ?_
      rw [Stmt.bare, Stmt.bare, h]
  | print e =>
      refine .bind (ih.expression e) fun e' => .pure fun _ _ h => ?_
      rw [Stmt.bare, Stmt.bare, h]
  | var mutability name initial =>
      refine .bind (.declare name name.lexeme) fun _ => ?_
      exact (ih.initial mutability name initial).weaken fun _ _ _ h _ => h
  | block body =>
      refine .bind (.inScope (.mapM_map ih.statement body)) fun body' => .pure fun _ _ h => ?_
      rw [Stmt.bare, Stmt.bare, bareStmts_eq, bareStmts_eq, h]
  | «if» condition thenBranch elseBranch =>
      refine .bind (ih.expression condition) fun condition' =>
        .bind (ih.statement thenBranch) fun thenBranch' =>
          .bind (.optional_map ih.statement elseBranch) fun elseBranch' =>
            .pure fun _ _ he ht hc => ?_
      rw [Stmt.bare, Stmt.bare, hc, ht, bareStmt?_eq, bareStmt?_eq, he]
  | «while» condition body increment =>
      refine .inLoop
        (P := fun _ _ (st' : Stmt) => st'.bare = (Stmt.while condition body increment).bare) ?_
      refine .bind (ih.expression condition) fun condition' =>
        .bind (ih.statement body) fun body' =>
          .bind (.optional_map ih.expression increment) fun increment' =>
            .pure fun _ _ hi hb hc => ?_
      rw [Stmt.bare, Stmt.bare, hc, hb, bareExpr?_eq, bareExpr?_eq, hi]
  | «break» keyword =>
      exact .checking (c := fun s => (!s.inLoop) = true) (R := fun _ _ => True) (fun _ _ => trivial)
        (.pure fun _ _ _ => rfl)
  | «continue» keyword =>
      exact .checking (c := fun s => (!s.inLoop) = true) (R := fun _ _ => True) (fun _ _ => trivial)
        (.pure fun _ _ _ => rfl)
  | «return» keyword value =>
      refine .bind (R := fun _ _ _ => True)
        (.check (c := fun s => s.function = .none) _ _ fun _ _ => trivial) fun _ => ?_
      refine .checking (R := fun _ _ => True) (fun _ _ => trivial) ?_
      refine .bind (.optional_map ih.expression value) fun value' => .pure fun _ _ h _ _ => ?_
      rw [Stmt.bare, Stmt.bare, bareExpr?_eq, bareExpr?_eq, h]
  | function f =>
      cases hname : f.name with
      | none =>
          simp only [hname]
          exact ih.declaration f
      | some name =>
          simp only [hname]
          exact .bind (.bindName name name.lexeme) fun _ =>
            (ih.declaration f).weaken fun _ _ _ h _ => h
  | «class» name superclass methods =>
      cases superclass with
      | none =>
          exact .inClass (.bind (.bindName name name.lexeme) fun _ =>
            (ih.methods name methods).weaken fun _ _ _ h _ => h)
      | some superclass =>
          exact .inClass (.bind (.bindName name name.lexeme) fun _ =>
            (ih.inherited name superclass methods).weaken fun _ _ _ h _ => h)
  | importModule keyword name as =>
      cases herror : importNameError? (importedModule name) as.isSome with
      | some error =>
          simp only [herror]
          exact .bind (.report (P := fun _ _ _ => True) _ _) fun _ => .pure fun _ _ _ => rfl
      | none =>
          simp only [herror]
          exact .bind (.bindName _ _) fun _ => .pure fun _ _ _ => rfl

theorem functionBody_succ (ih : LevelBare levels) {context : FunctionContext} (f : FunctionDecl)
    (hcontext : context ≠ .none) :
    Checks (fun _ _ f' => f'.bare = f.bare) (Resolve.functionBody (levels + 1) context f) := by
  obtain ⟨name, parameters, body⟩ := f
  refine .inFunction
    (P := fun _ _ (f' : FunctionDecl) => f'.bare = (FunctionDecl.mk name parameters body).bare)
    hcontext (.inScope ?_)
  refine .bind (.forM (fun p => .bindName p p.lexeme) parameters) fun _ =>
    .bind (.mapM_map ih.statement body) fun body' => .pure fun _ _ h _ => ?_
  rw [FunctionDecl.bare, FunctionDecl.bare, bareStmts_eq, bareStmts_eq, h]

end LevelBare

theorem bare (levels : Nat) : LevelBare levels := by
  induction levels with
  | zero =>
      exact
        { expression := fun _ => .throw ()
          statement := fun _ => .throw ()
          method := fun _ => .throw ()
          functionBody := fun _ _ _ => .throw () }
  | succ levels ih =>
      exact
        { expression := ih.expression_succ
          statement := ih.statement_succ
          method := fun f => ih.functionBody _ f (methodContext_ne f)
          functionBody := fun _ f h => ih.functionBody_succ f h }

/-! ### Declarations -/

section
variable {s s' : Scoping}

/-- Outside all scopes no constant is declared without an error. -/
theorem new_of_declare {token : Token} {name : String} (hscopes : s.scopes = [])
    (hc : (s.declare token name).Clean) : name ∉ s.globalConstants := by
  rcases declare_cases hc with ⟨-, hnew, -⟩ | ⟨inner, outer, hs, -⟩
  · exact hnew
  · rw [hscopes] at hs
    cases hs

/-- A name is declared, and what is left to resolve takes no error back. -/
theorem new_of_bind {P : Bool → Bool → α → Prop} {token : Token} {name : String}
    {p : Resolve α} {a : α} (hscopes : s.scopes = []) (hp : Checks P p)
    (h : (Resolve.bind token name >>= fun _ => p) s = .ok a s') (hc : s'.Clean) :
    name ∉ s.globalConstants := by
  obtain ⟨_, t, hbind, h⟩ := Watched.bind_ok h
  cases hbind
  exact new_of_declare hscopes (clean_define.mp ((hp _ _ _ h).2.2 hc).1)

theorem inClass_ok {context : ClassContext} {p : Resolve α} {a : α}
    (h : Resolve.inClass context p s = .ok a s') :
    ∃ t, p { s with classContext := context } = .ok a t ∧ (s'.Clean → t.Clean) := by
  obtain ⟨_, _, hget, h⟩ := Watched.bind_ok h
  cases hget
  obtain ⟨_, _, henter, h⟩ := Watched.bind_ok h
  cases henter
  obtain ⟨b, t, hb, h⟩ := Watched.bind_ok h
  cases h
  exact ⟨t, hb, id⟩

/-- A statement outside all scopes declares no constant without an error. -/
theorem declares_new {levels : Nat} {st st' : Stmt} (hst : (Node.stmt st).Formed)
    (h : Resolve.statement levels st s = .ok st' s') (hscopes : s.scopes = []) (hc : s'.Clean) :
    ∀ d ∈ st.declares, d.1 ∉ s.globalConstants := by
  cases levels with
  | zero => cases h
  | succ levels =>
      unfold Resolve.statement at h
      cases st with
      | var mutability name initial =>
          obtain ⟨_, t, hdeclare, h⟩ := Watched.bind_ok h
          cases hdeclare
          have hclean := (((bare levels).initial mutability name initial _ _ _ h).2.2 hc).1
          exact List.forall_mem_singleton.mpr (new_of_declare hscopes hclean)
      | function f =>
          obtain ⟨name, hname⟩ := Option.isSome_iff_exists.mp hst.1
          simp only [hname] at h
          have hdisplay : f.displayName = name.lexeme := by
            unfold FunctionDecl.displayName
            rw [hname]
          have hnew := new_of_bind hscopes ((bare levels).declaration f) h hc
          exact List.forall_mem_singleton.mpr (hdisplay ▸ hnew)
      | «class» name superclass methods =>
          cases superclass with
          | none =>
              obtain ⟨t, h, hct⟩ := inClass_ok h
              have hnew := new_of_bind (s := { s with classContext := .root }) hscopes
                ((bare levels).methods name methods) h (hct hc)
              exact List.forall_mem_singleton.mpr hnew
          | some superclass =>
              obtain ⟨t, h, hct⟩ := inClass_ok h
              have hnew := new_of_bind (s := { s with classContext := .derived }) hscopes
                ((bare levels).inherited name superclass methods) h (hct hc)
              exact List.forall_mem_singleton.mpr hnew
      | importModule keyword name as =>
          cases herror : importNameError? (importedModule name) as.isSome with
          | some error =>
              simp only [herror] at h
              obtain ⟨_, t, hreport, h⟩ := Watched.bind_ok h
              cases hreport
              cases h
              exact (not_clean_report _ _ _ hc).elim
          | none =>
              simp only [herror] at h
              have hnew := new_of_bind hscopes (p := Pure.pure _)
                (.pure (P := fun _ _ _ => True) fun _ _ => trivial) h hc
              exact List.forall_mem_singleton.mpr hnew
      | _ => exact List.forall_mem_nil _

end
end Resolve

namespace Visiting
open Watched Scoping
variable {levels : Nat} {ids : List Nat} {K : List String} {s s' : Watched Scoping Visit}

/-- Statements outside all scopes declare no constant without an error. -/
theorem declarations_new {body body' : List Stmt}
    (hraw : ∀ st ∈ body, (Node.stmt st).Unresolved)
    (h : body.mapM (Visiting.statement levels ids) s = .ok body' s') (hc : s'.state.Clean)
    (ha : s.state.Agrees K []) : ∀ d ∈ declarations body, d.1 ∉ K := by
  induction body generalizing s body' K with
  | nil => exact List.forall_mem_nil _
  | cons st body ih =>
      rw [List.mapM_cons] at h
      obtain ⟨st', t, hst, h⟩ := bind_ok h
      obtain ⟨rest, u, hrest, h⟩ := bind_ok h
      cases h
      have hrawst := hraw st (List.mem_cons_self ..)
      have hrawrest : ∀ st ∈ body, (Node.stmt st).Unresolved :=
        fun st hst => hraw st (List.mem_cons_of_mem _ hst)
      obtain ⟨hdeclares, -, -⟩ := (places levels).statement hrawst hst
      have hct := (LevelPlaces.statements_places (places levels) hrawrest hrest).1.clean hc
      have hplain : Resolve.statement levels st s.state = .ok st' t.state := by
        have herases := (Visiting.erases levels).statement ids st s
        rw [hst] at herases
        exact herases.symm
      have hscopes : s.state.scopes = [] := List.forall₂_nil_right_iff.mp ha.scopes
      intro d hd
      have hd : d ∈ st.declares ++ declarations body := hd
      rcases List.mem_append.mp hd with hd | hd
      · have hnew := Resolve.declares_new hrawst.here.1 hplain hscopes hct d hd
        exact fun hx => hnew ((ha.constants _).mpr hx)
      · have hsettled : Settled [] := trivial
        have hagrees := hdeclares.agrees hct hsettled ha
        have hnext := ih hrawrest hrest hagrees d hd
        exact fun hx => hnext (List.mem_append_left _ hx)

end Visiting

namespace UnitText
variable {t : UnitText} {c : String}

/-- The statements of an accepted unit are those that were read, but for hops. -/
theorem bare_statements (h : t.unit.ok = true) :
    t.unit.statements.map Stmt.bare = t.parsed.statements.map Stmt.bare :=
  checked h (Resolve.Checks.mapM_map (Resolve.bare (t.levels / 2)).statement t.parsed.statements)

/-- An accepted unit declares none of the constants that it was prepared with. -/
theorem declares_new (h : t.unit.ok = true) :
    ∀ d ∈ declarations t.parsed.statements, d.1 ∉ t.constants := by
  obtain ⟨s, hs⟩ := resolution_ok h
  exact Visiting.declarations_new (unresolved h) hs.watched hs.clean t.start_agrees

/-- Nor does it assign to any of them where no frame knows the name. -/
theorem assigns_new (h : t.unit.ok = true) {st : Stmt} (hst : st ∈ t.parsed.statements)
    {frames : List Frame} {use : NameUse} {value : Expr}
    (hwithin : Within ⟨[], .stmt st⟩ ⟨frames, .expr (.assign use value)⟩)
    (hfree : ∀ f ∈ frames, ¬f.Knows use.name.lexeme) : use.name.lexeme ∉ t.constants := by
  obtain ⟨st', hst', hbare⟩ := exists_mem_of_map (bare_statements h) hst
  obtain ⟨before, after, hsplit⟩ := List.append_of_mem hst'
  obtain ⟨⟨frames', n⟩, hwithin', hframes, hn⟩ :=
    hwithin.alike (p := ⟨[], .stmt st'⟩) ⟨.nil, congrArg Node.stmt hbare⟩
  obtain ⟨e, rfl, he⟩ := Node.eq_expr_of_bare hn
  obtain ⟨use', value', rfl, hname⟩ := Expr.eq_assign_of_bare he
  have hassigns : use'.Assigns (t.constants ++ constantNames (declarations before)) frames' :=
    (placed h hsplit _ hwithin').fits.1
  have hnone : use'.hops = none := by
    cases hh : use'.hops with
    | none => rfl
    | some n =>
        obtain ⟨f', hf', hknows, -⟩ := hassigns.1 n hh
        rw [hname] at hknows
        obtain ⟨f, hf, hknows⟩ := alike_knows hframes (List.mem_of_getElem? hf') hknows
        exact (hfree f hf hknows).elim
  have hnot := hassigns.2 hnone
  rw [hname] at hnot
  exact fun hc => hnot (List.mem_append_left _ hc)

/-- A unit declares a name outside all scopes, or assigns to it where no frame knows it. -/
def Overrides (t : UnitText) (c : String) : Prop :=
  (∃ m, (c, m) ∈ declarations t.parsed.statements) ∨
  ∃ st ∈ t.parsed.statements, ∃ frames use value,
    Within ⟨[], .stmt st⟩ ⟨frames, .expr (.assign use value)⟩ ∧ use.name.lexeme = c ∧
      ∀ f ∈ frames, ¬f.Knows c

/-- A unit that overrides a constant is rejected. -/
theorem rejected_of_overrides (h : t.Overrides c) (hc : c ∈ t.constants) : t.unit.ok = false := by
  by_contra hok
  rw [Bool.not_eq_false] at hok
  rcases h with ⟨m, hd⟩ | ⟨st, hst, frames, use, value, hwithin, rfl, hfree⟩
  · exact declares_new hok _ hd hc
  · exact assigns_new hok hst hwithin hfree hc

end UnitText
end Treewalk
