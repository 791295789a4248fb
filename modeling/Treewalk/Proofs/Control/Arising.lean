import Treewalk.Proofs.Run.Throughout
import Treewalk.Proofs.Run.Environments
import Treewalk.Proofs.Scopes.Written
import Treewalk.Proofs.Control.Blaming

/-!
# Where runtime errors arise

The token of a runtime error is one of a node that was evaluated: of the statement that failed, or of
a function that was called meanwhile, wherever this was declared. The error is reported by the
interpreter whose statement failed, which need not be the one in whose text the function stands.
-/
namespace Treewalk

namespace Watching
open Watched

/-! ### Growing notes -/

/-- Whatever was noted stays noted. -/
def NotesGrow (s t : Watched World Event) : Prop := s.notes <:+ t.notes

instance : Course NotesGrow := ⟨fun _ => List.suffix_refl _, List.IsSuffix.trans⟩

theorem quietly_grows {α : Type} (q : Eval α) : Leads NotesGrow (quietly q) := by
  intro s
  unfold Yields quietly
  cases q s.state with
  | ok a w => exact ⟨List.suffix_refl _, trivial⟩
  | error i w => exact ⟨List.suffix_refl _, trivial⟩

section
variable {run : Site → Stmt → Watching Unit} (hrun : ∀ site st, Leads NotesGrow (run site st))
include hrun

theorem execute_grows (home : Ref .interpreter) (text : UnitText) :
    Leads NotesGrow (execute run home text) := by
  intro s
  unfold execute
  by_cases hok : text.unit.ok = true
  · rw [if_pos hok]
    refine (quietly_grows _ s).bind fun _ t _ _ => ?_
    exact runStatements_yields hrun (fun _ _ _ => List.suffix_cons _ _)
      (fun _ _ _ => List.suffix_refl _) (List.suffix_refl _)
  · rw [if_neg hok]
    exact (quietly_grows _ s).bind fun _ t _ _ => .pure (List.suffix_refl _) trivial

theorem loadModule_grows (levels : Nat) (loader : Ref .loader) (token : Token) (name : String)
    (place : RealPath) (source : String) :
    Leads NotesGrow (loadModule levels run loader token name place source) := by
  refine .looking fun w s => ?_
  refine (quietly_grows _ s).bind fun _ t _ _ => ?_
  refine (execute_grows hrun _ _ t).bind fun completion u _ _ => ?_
  cases completion with
  | completed => exact .pure (List.suffix_refl _) trivial
  | rejected => exact (quietly_grows _ u).bind fun _ v _ _ => quietly_grows _ v
  | failed e => exact (quietly_grows _ u).bind fun _ v _ _ => quietly_grows _ v

end

instance : Throughout NotesGrow where
  refl _ := List.suffix_refl _
  inside _ := List.suffix_refl _
  printed _ _ := List.suffix_refl _
  opened _ _ _ := List.suffix_cons _ _
  marked _ _ _ _ := List.suffix_cons _ _
  loaded := loadModule_grows

/-! ### Nodes that errors name -/

section
variable {base : List Event} {home : Ref .interpreter} {root n m : Node} {site : Site}
  {s t : Watched World Event} {event : Event} {e : RuntimeError} {α : Type}

/-- Something was noted after the first notes. -/
def Since (base : List Event) (s : Watched World Event) (event : Event) : Prop :=
  ∃ new, s.notes = new ++ base ∧ event ∈ new

theorem Since.grow (h : Since base s event) (hg : NotesGrow s t) : Since base t event := by
  obtain ⟨new, hs, hevent⟩ := h
  obtain ⟨more, ht⟩ := hg
  exact ⟨more ++ new, by rw [← ht, hs, List.append_assoc], List.mem_append_right _ hevent⟩

theorem Since.last (h : base <:+ s.notes) (hs : event :: s.notes = t.notes) :
    Since base t event := by
  obtain ⟨new, hnew⟩ := h
  exact ⟨event :: new, by rw [← hs, ← hnew, List.cons_append], List.mem_cons_self⟩

/-- What an interpreter evaluates when it evaluates a node: what is inside it and, in whatever
interpreter, what is inside the functions that were called after the first notes. -/
inductive Reaches (base : List Event) (home : Ref .interpreter) (root : Node)
    (s : Watched World Event) (site : Site) (n : Node) : Prop
  | own : site.home = home → root.Encloses n → Reaches base home root s site n
  | called {r : Ref .scope} {f : FunctionDecl} : Since base s (.opened r (.function f)) →
      (Node.function f).Encloses n → Reaches base home root s site n

/-- The node is to be evaluated there. -/
structure Runs (base : List Event) (home : Ref .interpreter) (root : Node)
    (s : Watched World Event) (site : Site) (n : Node) : Prop where
  since : base <:+ s.notes
  reaches : Reaches base home root s site n

/-- The error names a token of a node whose evaluation began after the first notes. -/
def Blamed (base : List Event) (home : Ref .interpreter) (root : Node) (s : Watched World Event)
    (e : RuntimeError) : Prop :=
  ∃ site n w, Since base s (.node .reached site n w) ∧ Reaches base home root s site n ∧
    e.token ∈ n.tokens

/-- An interrupt that is blamed on a node if it is a runtime error. -/
def Faults (base : List Event) (home : Ref .interpreter) (root : Node) (i : Interrupt)
    (s : Watched World Event) : Prop := ∀ e, i = .error e → Blamed base home root s e

/-- The evaluation of the node has begun. -/
structure Begins (base : List Event) (home : Ref .interpreter) (root : Node)
    (s : Watched World Event) (site : Site) (n : Node) : Prop
    extends Runs base home root s site n where
  reached : ∃ w, Since base s (.node .reached site n w)

theorem Reaches.grow (h : Reaches base home root s site n) (hg : NotesGrow s t) :
    Reaches base home root t site n := by
  cases h with
  | own hhome hn => exact .own hhome hn
  | called hf hn => exact .called (hf.grow hg) hn

theorem Runs.grow (h : Runs base home root s site n) (hg : NotesGrow s t) :
    Runs base home root t site n := ⟨h.since.trans hg, h.reaches.grow hg⟩

theorem Runs.inner (h : Runs base home root s site n)
    (hm : ∀ frames, ∃ frames', Inner ⟨frames, n⟩ ⟨frames', m⟩) {scope : Ref .scope} :
    Runs base home root s ⟨site.home, scope⟩ m := by
  refine ⟨h.since, ?_⟩
  cases h.reaches with
  | own hhome hn => exact .own hhome (hn.inner hm)
  | called hf hn => exact .called hf (hn.inner hm)

theorem Runs.part (h : Runs base home root s site n) (hm : m ∈ n.parts) :
    Runs base home root s site m := h.inner fun frames => ⟨frames, .part hm⟩

theorem Begins.grow (h : Begins base home root s site n) (hg : NotesGrow s t) :
    Begins base home root t site n := by
  obtain ⟨w, hw⟩ := h.reached
  exact ⟨h.toRuns.grow hg, w, hw.grow hg⟩

theorem Begins.blamed (h : Begins base home root s site n) (he : e.token ∈ n.tokens) :
    Blamed base home root s e := by
  obtain ⟨w, hw⟩ := h.reached
  exact ⟨site, n, w, hw, h.reaches, he⟩

/-! ### Steps -/

theorem mark_faults (moment : Moment) :
    Yields NotesGrow (Faults base home root) (mark moment site n) s fun _ _ => True :=
  ⟨List.suffix_cons _ _, trivial⟩

theorem Runs.marking {p : Watching α} {Q : α → Watched World Event → Prop}
    (h : Runs base home root s site n)
    (hp : ∀ t, NotesGrow s t → Begins base home root t site n →
      Yields NotesGrow (Faults base home root) p t Q) :
    Yields NotesGrow (Faults base home root) (mark .reached site n >>= fun _ => p) s Q := by
  have hmark : Yields NotesGrow (Faults base home root) (mark .reached site n) s fun _ t =>
      .node .reached site n s.state :: s.notes = t.notes := ⟨List.suffix_cons _ _, rfl⟩
  exact hmark.bind fun _ t ht hnotes =>
    hp t ht ⟨h.grow ht, s.state, .last h.since hnotes⟩

/-- What evaluation raises is raised when it is watched. -/
theorem Leads.faults {p : Watching α} {q : Eval α} (hp : Leads NotesGrow p) (he : Erases p q)
    (hq : ∀ w e w', q w = .error (.error e) w' → ∀ t, NotesGrow s t → Blamed base home root t e) :
    Yields NotesGrow (Faults base home root) p s fun _ _ => True := by
  have hgrow := hp s
  have herased := he s
  unfold Yields at hgrow ⊢
  cases hr : p s with
  | ok a t =>
      rw [hr] at hgrow
      exact hgrow
  | error i t =>
      rw [hr] at hgrow herased
      refine ⟨hgrow.1, ?_⟩
      rintro e rfl
      exact hq s.state e t.state herased.symm t hgrow.1

/-- A step of the evaluation of a node that blames its tokens. -/
theorem Begins.blaming (h : Begins base home root s site n) {p : Watching α} {q : Eval α}
    (hp : Leads NotesGrow p) (he : Erases p q) (hq : q.Blames n.tokens) :
    Yields NotesGrow (Faults base home root) p s fun _ _ => True :=
  hp.faults he fun w e w' hr _ ht => (h.grow ht).blamed (hq w e w' hr)

theorem Begins.quietly (h : Begins base home root s site n) {q : Eval α} (hq : q.Blames n.tokens) :
    Yields NotesGrow (Faults base home root) (quietly q) s fun _ _ => True :=
  h.blaming (quietly_grows q) (.quietly q) hq

/-- A step that raises no errors. -/
theorem blameless {p : Watching α} {q : Eval α} (hp : Leads NotesGrow p) (he : Erases p q)
    (hq : q.Blames []) : Yields NotesGrow (Faults base home root) p s fun _ _ => True :=
  hp.faults he fun w e w' hr _ _ => (List.not_mem_nil (hq w e w' hr)).elim

theorem quietly_faults {q : Eval α} (hq : q.Blames []) :
    Yields NotesGrow (Faults base home root) (quietly q) s fun _ _ => True :=
  blameless (quietly_grows q) (.quietly q) hq

theorem looking_faults {f : World → Watching α} {Q : α → Watched World Event → Prop}
    (h : Yields NotesGrow (Faults base home root) (f s.state) s Q) :
    Yields NotesGrow (Faults base home root) (look >>= f) s Q := h

theorem pure_faults (a : α) :
    Yields NotesGrow (Faults base home root) (pure a) s fun _ _ => True :=
  .pure (List.suffix_refl _) trivial

theorem signal_faults (c : Signal) :
    Yields NotesGrow (Faults base home root) (throw (.signal c) : Watching α) s fun _ _ => True :=
  .throw (List.suffix_refl _) fun _ he => by cases he

theorem overflow_faults :
    Yields NotesGrow (Faults base home root) (throw .overflow : Watching α) s fun _ _ => True :=
  .throw (List.suffix_refl _) fun _ he => by cases he

/-! ### Calls -/

section
variable {run : Site → Stmt → Watching Unit}
  (hrun : ∀ s site st, Runs base home root s site (.stmt st) →
    Yields NotesGrow (Faults base home root) (run site st) s fun _ _ => True)
include hrun

theorem callFunction_faults (h : base <:+ s.notes) (f : Closure) (arguments : List Value) :
    Yields NotesGrow (Faults base home root) (callFunction run f arguments) s fun _ _ => True := by
  have hscope : Yields NotesGrow (Faults base home root)
      (newScope (.function f.declaration) f.scope) s
      fun r t => .opened r (.function f.declaration) :: s.notes = t.notes :=
    ⟨List.suffix_cons _ _, rfl⟩
  refine hscope.bind fun r t ht hnotes => ?_
  have hopened : Since base t (.opened r (.function f.declaration)) := .last h hnotes
  refine Yields.bind (Q := fun _ _ => True)
    (.forM (fun _ _ _ _ => quietly_faults (Eval.blames_define _ _ _)) (List.suffix_refl _))
    fun _ u hu _ => ?_
  have hbody : Yields NotesGrow (Faults base home root)
      (f.declaration.body.forM (run ⟨f.home, r⟩)) u fun _ _ => True := by
    refine .forM (fun st hst v hv => hrun v _ st ?_) (List.suffix_refl _)
    refine ⟨((h.trans ht).trans hu).trans hv, .called ((hopened.grow hu).grow hv) ?_⟩
    obtain ⟨before, after, hsplit⟩ := List.append_of_mem hst
    exact (Node.Encloses.refl _).inner fun _ => ⟨_, .body hsplit⟩
  refine (returned_yields hbody (fun _ => trivial) fun _ _ _ => trivial).bind fun v x _ _ => ?_
  by_cases hi : f.isInitializer = true
  · rw [if_pos hi]
    exact quietly_faults (Eval.blames_loadAt _ _ _)
  · rw [if_neg hi]
    exact pure_faults v

theorem callValue_faults (h : base <:+ s.notes) (callee : Value) (arguments : List Value) :
    Yields NotesGrow (Faults base home root) (callValue run callee arguments) s
      fun _ _ => True := by
  refine looking_faults ?_
  cases callee with
  | function r => exact callFunction_faults hrun h _ arguments
  | «class» r =>
      have hmade : Yields NotesGrow (Faults base home root)
          (Watched.quietly (Eval.newInstance r)) s fun _ _ => True := quietly_faults (.modifying _)
      refine hmade.bind fun i t ht _ => ?_
      cases s.state.method? r "init" with
      | some f =>
          have hbound : Yields NotesGrow (Faults base home root) (bound f i) t fun _ _ => True :=
            blameless (.bound f i) bound_erases (Eval.blames_bound f i)
          refine hbound.bind fun f u hu _ => ?_
          exact (callFunction_faults hrun ((h.trans ht).trans hu) f arguments).bind fun _ _ _ _ =>
            pure_faults _
      | none => exact pure_faults _
  | _ => exact pure_faults _

end

/-- An error that comes out of a call, or that the call makes of too much nesting. -/
theorem Begins.atCall {callee : Expr} {paren : Token} {arguments : List Expr}
    (h : Begins base home root s site (.expr (.call callee paren arguments))) {p : Watching α}
    (hp : Yields NotesGrow (Faults base home root) p s fun _ _ => True) :
    Yields NotesGrow (Faults base home root) (atCall paren p) s fun _ _ => True := by
  refine atCall_yields hp fun t ht => ?_
  rintro e ⟨⟩
  exact (h.grow ht).blamed (List.mem_singleton_self _)

end

/-! ### Trees -/

/-- Whatever is evaluated at a level raises errors that are blamed on nodes. -/
structure LevelFaults (base : List Event) (home : Ref .interpreter) (root : Node)
    (patience levels : Nat) : Prop where
  expression : ∀ s site e, Runs base home root s site (.expr e) →
    Yields NotesGrow (Faults base home root) (expression patience levels site e) s fun _ _ => True
  call : ∀ s callee arguments, base <:+ s.notes →
    Yields NotesGrow (Faults base home root) (call patience levels callee arguments) s
      fun _ _ => True
  statement : ∀ s site st, Runs base home root s site (.stmt st) →
    Yields NotesGrow (Faults base home root) (statement patience levels site st) s fun _ _ => True

namespace LevelFaults
variable {base : List Event} {home : Ref .interpreter} {root : Node} {patience levels : Nat}
  (ih : LevelFaults base home root patience levels) {s : Watched World Event} {site : Site}
include ih

theorem expression_succ {e : Expr} (h : Runs base home root s site (.expr e)) :
    Yields NotesGrow (Faults base home root)
      (Watching.expression patience (levels + 1) site e) s fun _ _ => True := by
  unfold Watching.expression
  refine h.marking fun t _ h => ?_
  have hpart : ∀ {e' : Expr} {u}, .expr e' ∈ (Node.expr e).parts → NotesGrow t u →
      Yields NotesGrow (Faults base home root)
        (Watching.expression patience levels site e') u fun _ _ => True :=
    fun hm hu => ih.expression _ site _ ((h.toRuns.part hm).grow hu)
  cases e with
  | literal l => exact pure_faults _
  | grouping inner => exact hpart List.mem_cons_self (List.suffix_refl _)
  | name use => exact h.quietly (Eval.blames_read site List.mem_cons_self)
  | this use => exact h.quietly (Eval.blames_read site List.mem_cons_self)
  | assign use value =>
      refine (hpart List.mem_cons_self (List.suffix_refl _)).bind fun v u hu _ => ?_
      refine (mark_faults _).bind fun _ x hx _ => ?_
      have hassigned := ((h.grow hu).grow hx).quietly (Eval.blames_assign site List.mem_cons_self v)
      exact hassigned.bind fun _ _ _ _ => pure_faults v
  | unary op token operand =>
      refine (hpart List.mem_cons_self (List.suffix_refl _)).bind fun v u hu _ => ?_
      exact (h.grow hu).quietly (Eval.blames_ofOperator List.mem_cons_self _)
  | binary left op token right =>
      refine (hpart List.mem_cons_self (List.suffix_refl _)).bind fun v u hu _ => ?_
      refine (hpart (List.mem_cons_of_mem _ List.mem_cons_self) hu).bind fun v' x hx _ => ?_
      exact ((h.grow hu).grow hx).quietly (Eval.blames_ofOperator List.mem_cons_self _)
  | logical left op token right =>
      refine (hpart List.mem_cons_self (List.suffix_refl _)).bind fun v u hu _ => ?_
      by_cases hd : op.decides v = true
      · rw [if_pos hd]
        exact pure_faults v
      · rw [if_neg hd]
        exact hpart (List.mem_cons_of_mem _ List.mem_cons_self) hu
  | call callee paren arguments =>
      refine (hpart List.mem_cons_self (List.suffix_refl _)).bind fun f u hu _ => ?_
      have harguments : Yields NotesGrow (Faults base home root)
          (arguments.mapM (Watching.expression patience levels site)) u fun _ _ => True := by
        refine .mapM_trivially (fun e he x hx => ?_) (List.suffix_refl _)
        exact hpart (List.mem_cons_of_mem _ (List.mem_map_of_mem he)) (hu.trans hx)
      refine harguments.bind fun vs x hx _ => ?_
      have hx := (h.grow hu).grow hx
      refine (hx.quietly (Eval.blames_checkCall f List.mem_cons_self _)).bind fun _ y hy _ => ?_
      exact (hx.grow hy).atCall (ih.call y f vs (hx.grow hy).since)
  | get object name =>
      refine (hpart List.mem_cons_self (List.suffix_refl _)).bind fun o u hu _ => ?_
      exact (h.grow hu).blaming (.property o name) property_erases
        (Eval.blames_property o List.mem_cons_self)
  | set object name value =>
      refine (hpart List.mem_cons_self (List.suffix_refl _)).bind fun o u hu _ => ?_
      have hfields := (h.grow hu).quietly (Eval.blames_checkFields o List.mem_cons_self)
      refine hfields.bind fun _ x hx _ => ?_
      have hvalue := hpart (List.mem_cons_of_mem _ List.mem_cons_self) (hu.trans hx)
      refine hvalue.bind fun v y hy _ => (mark_faults _).bind fun _ z hz _ => ?_
      have hset := ((((h.grow hu).grow hx).grow hy).grow hz).quietly
        (Eval.blames_setProperty o List.mem_cons_self v)
      exact hset.bind fun _ _ _ _ => pure_faults v
  | super use method =>
      exact h.blaming (.superMethod site use method) superMethod_erases
        (Eval.blames_superMethod site use (List.mem_cons_of_mem _ List.mem_cons_self))
  | lambda function => exact h.quietly (Eval.blames_newFunction _)

theorem statement_succ {st : Stmt} (h : Runs base home root s site (.stmt st)) :
    Yields NotesGrow (Faults base home root)
      (Watching.statement patience (levels + 1) site st) s fun _ _ => True := by
  unfold Watching.statement
  refine h.marking fun t _ h => ?_
  have hpart : ∀ {e : Expr} {u}, .expr e ∈ (Node.stmt st).parts → NotesGrow t u →
      Yields NotesGrow (Faults base home root)
        (Watching.expression patience levels site e) u fun _ _ => True :=
    fun hm hu => ih.expression _ site _ ((h.toRuns.part hm).grow hu)
  have hinner : ∀ {st' : Stmt} {u}, .stmt st' ∈ (Node.stmt st).parts → NotesGrow t u →
      Yields NotesGrow (Faults base home root)
        (Watching.statement patience levels site st') u fun _ _ => True :=
    fun hm hu => ih.statement _ site _ ((h.toRuns.part hm).grow hu)
  cases st with
  | expression e =>
      exact (hpart List.mem_cons_self (List.suffix_refl _)).bind fun _ _ _ _ => pure_faults _
  | print e =>
      exact (hpart List.mem_cons_self (List.suffix_refl _)).bind fun v _ _ _ =>
        quietly_faults (.modifying _)
  | var mutability name initial =>
      have hdefine : ∀ v u, Yields NotesGrow (Faults base home root)
          (Watched.quietly (Eval.define site.scope name.lexeme v) >>= fun _ =>
            Watching.mark .declared site (.stmt (.var mutability name initial))) u
          fun _ _ => True := fun v u =>
        (quietly_faults (Eval.blames_define _ _ v)).bind fun _ _ _ _ => mark_faults _
      cases initial with
      | none => exact hdefine .nil t
      | some e =>
          have hinitial : Runs base home root t site (.expr e) :=
            h.toRuns.inner fun _ => ⟨_, .initial⟩
          exact (ih.expression t site e hinitial).bind fun v u _ _ => hdefine v u
  | block body =>
      have hscope : Yields NotesGrow (Faults base home root)
          (newScope (.block body) site.scope) t fun _ _ => True :=
        blameless (.newScope _ _) newScope_erases (Eval.blames_newScope _)
      refine hscope.bind fun r u hu _ => .forM (fun st hst v hv => ?_) (List.suffix_refl _)
      obtain ⟨before, after, hsplit⟩ := List.append_of_mem hst
      refine ih.statement v _ st (((h.grow hu).grow hv).toRuns.inner fun _ => ?_)
      subst hsplit
      exact ⟨_, .block⟩
  | «if» condition thenBranch elseBranch =>
      refine (hpart List.mem_cons_self (List.suffix_refl _)).bind fun v u hu _ => ?_
      by_cases hv : v.truthy = true
      · rw [if_pos hv]
        exact hinner (List.mem_cons_of_mem _ List.mem_cons_self) hu
      · rw [if_neg hv]
        cases elseBranch with
        | none => exact pure_faults _
        | some st =>
            exact hinner (List.mem_cons_of_mem _ (List.mem_cons_of_mem _ List.mem_cons_self)) hu
  | «while» condition body increment =>
      refine loop_yields (fun u hu => ?_) (fun u hu => ?_) (fun u hu => ?_)
        (fun _ _ he => by cases he) (List.suffix_refl _) patience
      · exact (hpart List.mem_cons_self hu).map fun _ _ _ _ => trivial
      · exact hinner (List.mem_cons_of_mem _ List.mem_cons_self) hu
      · cases increment with
        | none => exact pure_faults _
        | some e =>
            have he := hpart (List.mem_cons_of_mem _ (List.mem_cons_of_mem _ List.mem_cons_self)) hu
            exact he.map fun _ _ _ _ => trivial
  | «break» keyword => exact signal_faults _
  | «continue» keyword => exact signal_faults _
  | «return» keyword value =>
      cases value with
      | none => exact signal_faults _
      | some e =>
          exact (hpart List.mem_cons_self (List.suffix_refl _)).bind fun _ _ _ _ =>
            signal_faults _
  | function f =>
      exact quietly_faults (.bind (Eval.blames_newFunction _) fun v => Eval.blames_define _ _ v)
  | «class» name parent methods =>
      have hdeclare : ∀ parent u, Yields NotesGrow (Faults base home root)
          (Watching.declareClass site name parent methods) u fun _ _ => True :=
        fun parent _ => blameless (.declareClass site name parent methods) declareClass_erases
          (Eval.blames_declareClass site name parent methods)
      cases parent with
      | none => exact hdeclare none t
      | some use =>
          have hclass := h.blaming (.superclass site use) superclass_erases
            (Eval.blames_superclass site (List.mem_cons_of_mem _ List.mem_cons_self))
          have hsome : Yields NotesGrow (Faults base home root)
              (some <$> Watching.superclass site use) t fun _ _ => True :=
            hclass.map fun _ _ _ _ => trivial
          exact hsome.bind fun parent u _ _ => hdeclare parent u
  | importModule keyword name as =>
      have hname : name ∈ (Node.stmt (.importModule keyword name as)).tokens :=
        List.mem_cons_of_mem _ List.mem_cons_self
      have hrun : ∀ site st, Leads NotesGrow (Watching.statement patience levels site st) :=
        (levelLeads patience levels).statement
      have himport := h.blaming (.importModule hrun (2 * levels) site.home name)
        (importModule_erases (erases patience levels).statement)
        (Eval.blames_importModule _ _ _ hname)
      exact himport.bind fun m _ _ _ => quietly_faults (Eval.blames_define _ _ _)

end LevelFaults

theorem levelFaults (base : List Event) (home : Ref .interpreter) (root : Node)
    (patience levels : Nat) : LevelFaults base home root patience levels := by
  induction levels with
  | zero =>
      exact ⟨fun _ _ _ _ => overflow_faults, fun _ _ _ _ => overflow_faults,
        fun _ _ _ _ => overflow_faults⟩
  | succ levels ih =>
      exact
        { expression := fun _ _ _ => ih.expression_succ
          call := fun _ callee arguments h => callValue_faults ih.statement h callee arguments
          statement := fun _ _ _ => ih.statement_succ }

end Watching

/-! ### Sessions -/

/-- The node stands in an accepted unit of the interpreter, in a statement that has begun. -/
def UnitText.Holds (text : UnitText) (notes : List Event) (home : Ref .interpreter) (n : Node) :
    Prop :=
  text.unit.ok = true ∧ ∃ st ∈ text.unit.statements, .began home text st ∈ notes ∧
    (Node.stmt st).Encloses n

/-- All tokens of the node and of what is inside it are tokens of the text. -/
theorem UnitText.Holds.mem_tokens {text : UnitText} {notes : List Event}
    {home : Ref .interpreter} {n m : Node} (h : text.Holds notes home n) (hm : n.Encloses m)
    {token : Token} (ht : token ∈ m.tokens) : token ∈ (scan text.source).tokens := by
  obtain ⟨hok, st, hst, -, hn⟩ := h
  obtain ⟨frames, hwithin⟩ := hn.trans hm
  exact (text.written hok hst hwithin).mem token ht

theorem At.held {current : Prop} {s : Watched World Event} {site : Site} {frames : List Frame}
    {n : Node} (h : At s site ⟨frames, n⟩) (htold : Told current s.notes) :
    ∃ text : UnitText, text.Holds s.notes site.home n := by
  obtain ⟨text, st, hbegan, hwithin⟩ := h.begun
  obtain ⟨hok, hst⟩ := htold.accepted hbegan
  exact ⟨text, hok, st, hst, hbegan, frames, hwithin⟩

/-- The error names a token of a node in the body of a function that was called between the states. The
unit holds the node and belongs to the interpreter that evaluated it. -/
def RuntimeError.InCall (e : RuntimeError) (s t : Watched World Event) (home : Ref .interpreter)
    (text : UnitText) : Prop :=
  ∃ r f scope n w, Watching.Since s.notes t (.opened r (.function f)) ∧
    (Node.function f).Encloses n ∧ Watching.Since s.notes t (.node .reached ⟨home, scope⟩ n w) ∧
    e.token ∈ n.tokens ∧ text.Holds t.notes home n

theorem RuntimeError.InCall.mem_tokens {e : RuntimeError} {s t : Watched World Event}
    {home : Ref .interpreter} {text : UnitText} (h : e.InCall s t home text) :
    e.token ∈ (scan text.source).tokens := by
  obtain ⟨_, _, _, n, _, _, _, _, htoken, hholds⟩ := h
  exact hholds.mem_tokens (.refl n) htoken

/-- A runtime error that ends a statement names a token of the statement, or of a function that was
called. -/
theorem Watching.statement_error {s t : Watched World Event} {site : Site} {frames : List Frame}
    {st : Stmt} {patience levels : Nat} {e : RuntimeError} (h : Good False 0 s)
    (hat : At s site ⟨frames, .stmt st⟩)
    (hr : Watching.statement patience levels site st s = .error (.error e) t) :
    (∃ n, (Node.stmt st).Encloses n ∧ e.token ∈ n.tokens) ∨
      ∃ home text, e.InCall s t home text := by
  have hsafe := (levelSafe False patience levels).statement 0 s site frames st h hat
    fun _ hlt => (Nat.not_lt_zero _ hlt).elim
  have hfaults := (levelFaults s.notes site.home (.stmt st) patience levels).statement s site st
    ⟨List.suffix_refl _, .own rfl (.refl _)⟩
  unfold Safe at hsafe
  unfold Yields at hfaults
  rw [hr] at hsafe hfaults
  obtain ⟨⟨home, scope⟩, n, w, hreached, hreaches, htoken⟩ := hfaults.2 e rfl
  -- The node that is to blame is inside the statement, or inside a function that was called.
  cases hreaches with
  | own _ hn => exact .inl ⟨n, hn, htoken⟩
  | @called r f hopened hn =>
      obtain ⟨new, hnotes, hnew⟩ := hreached
      obtain ⟨before, after, rfl⟩ := List.append_of_mem hnew
      have htold := hsafe.1.good.told
      rw [hnotes, List.append_assoc, List.cons_append] at htold
      obtain ⟨frames', hat'⟩ := htold.split.2
      obtain ⟨text, hok, st', hst', hbegan, hholds⟩ := hat'.held htold.earlier
      have hheld : text.Holds t.notes home n := by
        refine ⟨hok, st', hst', ?_, hholds⟩
        rw [hnotes, List.append_assoc, List.cons_append]
        exact List.mem_append_right _ (List.mem_cons_of_mem _ hbegan)
      exact .inr ⟨home, text, r, f, scope, n, w, hopened, hn, ⟨_, hnotes, hnew⟩, htoken, hheld⟩

/-- A unit reports the runtime error of a statement of its own, through its interpreter. -/
theorem Eval.runStatements_failed {run : Site → Stmt → Eval Unit} {home : Ref .interpreter}
    {ss : List Stmt} {w v : World} {e : RuntimeError}
    (h : Eval.runStatements run home ss w = .ok (.failed e) v) :
    ∃ before st after u u', ss = before ++ st :: after ∧
      before.forM (run ⟨home, w.globals home⟩) w = .ok () u ∧
      run ⟨home, w.globals home⟩ st u = .error (.error e) u' ∧ v = u'.reportRuntime home e := by
  unfold Eval.runStatements at h
  split at h
  · cases h
  · rename_i e' u' hr
    cases h
    obtain ⟨before, st, after, u, hsplit, hbefore, hstop⟩ := Watched.forM_error hr
    exact ⟨before, st, after, u, u', hsplit, hbefore, hstop, rfl⟩
  · cases h

/-- A unit reports, through its own interpreter, the runtime error of one of its statements. The
offending token stands in the source of every unit of this interpreter that holds the statement, of
which there is one, unless it stands in the body of a function that was called meanwhile: then it
stands in the source of a unit of the interpreter that evaluated the body, whichever this is. -/
theorem errors_stand_in_units (steps : List SessionStep) (patience levels : Nat) :
    (∀ home ss w e v, Eval.runStatements (Eval.statement patience levels) home ss w =
        .ok (.failed e) v →
      ∃ before st after u u', ss = before ++ st :: after ∧
        before.forM (Eval.statement patience levels ⟨home, w.globals home⟩) w = .ok () u ∧
        Eval.statement patience levels ⟨home, w.globals home⟩ st u = .error (.error e) u' ∧
        v = u'.reportRuntime home e) ∧
    ∀ later earlier site st w, (Session.watch steps).notes =
        later ++ .node .reached site (.stmt st) w :: earlier →
      (∃ text : UnitText, text.Holds earlier site.home (.stmt st)) ∧
      ∀ e v, Eval.statement patience levels site st w = .error (.error e) v →
        (∀ text : UnitText, text.Holds earlier site.home (.stmt st) →
          e.token ∈ (scan text.source).tokens) ∨
        ∃ t home text, Watching.statement patience levels site st ⟨w, earlier⟩ =
            .error (.error e) t ∧ t.state = v ∧
          e.InCall ⟨w, earlier⟩ t home text ∧ e.token ∈ (scan text.source).tokens := by
  refine ⟨fun home ss w e v => Eval.runStatements_failed, ?_⟩
  intro later earlier site st w h
  obtain ⟨hgood, frames, hat⟩ := Session.noted (fun hc : False => hc.elim) h
  refine ⟨hat.held hgood.told, fun e v hr => ?_⟩
  have herased := (Watching.erases patience levels).statement site st ⟨w, earlier⟩
  rw [hr] at herased
  cases hw : Watching.statement patience levels site st ⟨w, earlier⟩ with
  | ok a t =>
      rw [hw] at herased
      cases herased
  | error i t =>
      rw [hw] at herased
      cases herased
      rcases Watching.statement_error hgood hat hw with ⟨n, hn, htoken⟩ | ⟨home, text, hcall⟩
      · exact .inl fun text hholds => hholds.mem_tokens hn htoken
      · exact .inr ⟨t, home, text, rfl, rfl, hcall, hcall.mem_tokens⟩

/-- Whether a statement of the first interpreter is reached that fails at a plus sign. -/
def Event.failsAtPlus : Event → Bool
  | .node .reached site (.stmt st) w =>
      match Eval.statement 9 20 site st w with
      | .error (.error e) _ => site.home.index == 0 && e.token.kind == .plus
      | _ => false
  | _ => false

/-- Whether the statement of a unit of the first interpreter begins only if there is no plus sign in
the text of the unit. -/
def Event.beginsWithoutPlus : Event → Bool
  | .began home text _ =>
      home.index != 0 || (scan text.source).tokens.all fun token => token.kind != .plus
  | _ => true

/-- A function of a module fails that is called from outside. -/
theorem errors_stand_in_units_call :
    (let plus : Token := ⟨.plus, "+", none, 1⟩
    let ss := [Stmt.expression (.binary (.literal .nil) .add plus (.literal .nil))]
    let e : RuntimeError := ⟨plus, .operandsNotAddable⟩
    ∃ v, Eval.runStatements (Eval.statement 9 20) ⟨0⟩ ss {} = .ok (.failed e) v ∧
      ∃ before st after u u', ss = before ++ st :: after ∧
        before.forM (Eval.statement 9 20 ⟨⟨0⟩, World.globals {} ⟨0⟩⟩) {} = .ok () u ∧
        Eval.statement 9 20 ⟨⟨0⟩, World.globals {} ⟨0⟩⟩ st u = .error (.error e) u' ∧
        v = u'.reportRuntime ⟨0⟩ e) ∧
    ∃ later earlier site st w e v t home text,
      (Session.watch (.addLoader [] :: Session.withModules
        [("m.lox", "fun f() \x7b return nil + 1; \x7d")] "import m;\n\nm.f();")).notes =
        later ++ .node .reached site (.stmt st) w :: earlier ∧
      Eval.statement 9 20 site st w = .error (.error e) v ∧
      (∀ text' : UnitText, text'.Holds earlier site.home (.stmt st) →
        e.token ∉ (scan text'.source).tokens) ∧
      t.state = v ∧ e.InCall ⟨w, earlier⟩ t home text ∧ e.token ∈ (scan text.source).tokens := by
  constructor
  · intro plus ss e
    have hrun : Eval.runStatements (Eval.statement 9 20) ⟨0⟩ ss {} =
        .ok (.failed e) (World.reportRuntime {} ⟨0⟩ e) := rfl
    exact ⟨_, hrun, (errors_stand_in_units [] 9 20).1 ⟨0⟩ ss {} e _ hrun⟩
  · have hfails : (Session.watch (.addLoader [] :: Session.withModules
        [("m.lox", "fun f() \x7b return nil + 1; \x7d")] "import m;\n\nm.f();")).notes.any
        Event.failsAtPlus = true := by decide +kernel
    have hwithout : (Session.watch (.addLoader [] :: Session.withModules
        [("m.lox", "fun f() \x7b return nil + 1; \x7d")] "import m;\n\nm.f();")).notes.all
        Event.beginsWithoutPlus = true := by decide +kernel
    obtain ⟨event, hevent, hcheck⟩ := List.any_eq_true.mp hfails
    obtain ⟨later, earlier, hnotes⟩ := List.append_of_mem hevent
    unfold Event.failsAtPlus at hcheck
    split at hcheck
    · rename_i site st w
      split at hcheck
      · rename_i e v hr
        obtain ⟨hhome, hplus⟩ := Bool.and_eq_true_iff.mp hcheck
        have hnone : ∀ text : UnitText, text.Holds earlier site.home (.stmt st) →
            e.token ∉ (scan text.source).tokens := by
          rintro text ⟨-, st', -, hbegan, -⟩ htoken
          rw [hnotes] at hwithout
          have hbegins := List.all_eq_true.mp hwithout _
            (List.mem_append_right _ (List.mem_cons_of_mem _ hbegan))
          unfold Event.beginsWithoutPlus at hbegins
          simp only [bne, hhome, Bool.not_true, Bool.false_or, List.all_eq_true] at hbegins
          have hno := hbegins e.token htoken
          rw [hplus] at hno
          cases hno
        obtain ⟨⟨text, hholds⟩, herror⟩ :=
          (errors_stand_in_units _ 9 20).2 later earlier site st w hnotes
        rcases herror e v hr with hown | ⟨t, home, text', -, hstate, hcall, htoken⟩
        · exact (hnone text hholds (hown text hholds)).elim
        · exact ⟨later, earlier, site, st, w, e, v, t, home, text', hnotes, hr, hnone, hstate,
            hcall, htoken⟩
      · cases hcheck
    · cases hcheck

end Treewalk
