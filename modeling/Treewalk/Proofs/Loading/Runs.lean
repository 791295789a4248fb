import Treewalk.Proofs.Loading.Steps

/-!
# Loads in a run

Every load that starts ends: completed, with all statements of its unit executed, or cut by what is no
runtime error, or failed and forgotten. By induction on the nesting everything that is evaluated
leaves the loads around it alone.
-/
namespace Treewalk

namespace Loading
variable {one : Prop} {loads kept : List Load} {s : Watched World LoadEvent}
  {run : Site → Stmt → Loading Unit}

/-! ### Calls -/

namespace Keeps

theorem callFunction (hrun : ∀ site st, Keeps one loads (run site st)) (f : Closure)
    (arguments : List Value) : Keeps one loads (callFunction run f arguments) := by
  refine .bind (.quietly (Eval.inside_newScope _).indoors) fun scope =>
    .bind (.forM (fun _ => .quietly (Eval.inside_define _ _ _).indoors) _) fun _ =>
      .bind (.returned (.forM (hrun _) _)) fun v => ?_
  split
  · exact .quietly (Eval.inside_loadAt _ _ _).indoors
  · exact .pure _

theorem callValue (hrun : ∀ site st, Keeps one loads (run site st)) (callee : Value)
    (arguments : List Value) : Keeps one loads (callValue run callee arguments) := by
  refine .looking fun w => ?_
  cases callee with
  | function r => exact callFunction hrun _ arguments
  | «class» r =>
      refine .bind (.quietly (Eval.inside_newInstance r).indoors) fun i => ?_
      cases w.method? r "init" with
      | some f =>
          exact .bind (.quietly (Eval.inside_bound f i).indoors) fun f =>
            .bind (callFunction hrun f arguments) fun _ => .pure _
      | none => exact .pure _
  | _ => exact .pure _

end Keeps

/-! ### Units and modules -/

/-- What holds after the execution of a unit: if it completed, then `Q`. -/
def Finishes (one : Prop) (loads kept : List Load) (notes : List LoadEvent)
    (Q : Watched World LoadEvent → Prop) :
    EStateM.Result Interrupt (Watched World LoadEvent) Eval.Completion → Prop
  | .ok .completed t => LoadsGo one loads kept notes t ∧ Unharmed t.notes ∧ Q t
  | .ok _ t => LoadsGo one loads kept notes t
  | .error (.signal _) t => LoadsGo one loads kept notes t ∧ Unharmed t.notes
  | .error (.error _) _ => False
  | .error _ t => LoadsGo one loads kept notes t

/-- No runtime error goes through a unit. -/
theorem finishing_finishes {Q : Watched World LoadEvent → Prop} {notes : List LoadEvent}
    {home : Ref .interpreter} {p : Loading Unit} (h : Leaves one loads kept notes Q (p s)) :
    Finishes one loads kept notes Q (finishing home p s) := by
  unfold finishing
  cases hr : p s with
  | ok a t =>
      rw [hr] at h
      exact h
  | error i t =>
      rw [hr] at h
      cases i with
      | error e => exact ⟨h.inLoads.sameObjects (t.state.sameObjects_reportRuntime home e), h.executions⟩
      | _ => exact h

theorem execute_finishes {Q : Watched World LoadEvent → Prop} {home : Ref .interpreter}
    {u : CompiledUnit} (h : InLoads one loads s)
    (hrun : ∀ (t : Watched World LoadEvent) site, t.notes = s.notes → InLoads one loads t →
      Leaves one loads kept s.notes Q (u.statements.forM (run site) t)) :
    Finishes one loads kept s.notes (fun t => u.ok = true ∧ Q t) (execute run home u s) := by
  unfold execute
  by_cases hok : u.ok = true
  · rw [if_pos hok]
    have hprepared := h.sameObjects (s.state.sameObjects_prepare home u)
    have hall := hrun ⟨s.state.prepare home u, s.notes⟩
      ⟨home, (s.state.prepare home u).globals home⟩ rfl hprepared
    have hfinish : Finishes one loads kept s.notes Q (finishing home (u.statements.forM
        (run ⟨home, (s.state.prepare home u).globals home⟩)) ⟨s.state.prepare home u, s.notes⟩) :=
      finishing_finishes hall
    change Finishes one loads kept s.notes _ (finishing home (u.statements.forM
      (run ⟨home, (s.state.prepare home u).globals home⟩)) ⟨s.state.prepare home u, s.notes⟩)
    cases hr : finishing home (u.statements.forM
      (run ⟨home, (s.state.prepare home u).globals home⟩)) ⟨s.state.prepare home u, s.notes⟩ with
    | ok completion t =>
        rw [hr] at hfinish
        cases completion with
        | completed => exact ⟨hfinish.1, hfinish.2.1, hok, hfinish.2.2⟩
        | _ => exact hfinish
    | error i t =>
        rw [hr] at hfinish
        cases i <;> exact hfinish
  · rw [if_neg hok]
    have hlogged := h.sameObjects (s.state.sameObjects_log (.notExecuted u.file u.errorCount))
    exact ⟨hlogged, fun _ _ => rfl⟩

section
variable {run : List Load → Site → Stmt → Loading Unit} {l : Load}

/-- The statements of a module are executed one after the other. -/
theorem executing_leaves (hrun : ∀ loads site st, Keeps one loads (run loads site st))
    (hl : l ∉ loads) (site : Site) (sts : List Stmt) (h : InLoads one (l :: loads) s)
    (hu : Unharmed s.notes) :
    Leaves one (l :: loads) loads s.notes
      (fun t => l.executions t.notes = sts.reverse ++ l.executions s.notes)
      (sts.forM (executing run loads l site) s) := by
  induction sts generalizing s with
  | nil => exact ⟨h.go, hu, rfl⟩
  | cons st sts ih =>
      have hst := hrun (l :: loads) site st s h hu
      have hkept : ∀ l' ∈ loads, ∀ notes, l'.executions (.executed l st :: notes) =
          l'.executions notes := fun l' hl' notes => l'.executions_cons_of_ne fun _ he => by
        cases he
        exact hl hl'
      change Leaves _ _ _ _ _ ((executing run loads l site st >>= fun _ =>
        sts.forM (executing run loads l site)) s)
      unfold executing
      rw [bind_assoc]
      change Leaves _ _ _ _ _ (EStateM.bind (run (l :: loads) site st) _ s)
      unfold EStateM.bind
      cases hr : run (l :: loads) site st s with
      | ok a t =>
          rw [hr] at hst
          obtain ⟨hgo, ht, -⟩ := hst
          have hnext := ih (hgo.inLoads.executed st) (.cons nofun ht)
          have hall := hnext.mono fun l' hl' => (hkept l' hl' t.notes).trans
            (hgo.executions l' (List.mem_cons_of_mem _ hl'))
          rw [Load.executions_cons_self, hgo.executions l (List.mem_cons_self ..)] at hall
          rw [List.reverse_cons, List.append_assoc]
          exact hall
      | error i t =>
          rw [hr] at hst
          have hgo : ∀ {t}, LoadsGo one (l :: loads) (l :: loads) s.notes t →
              LoadsGo one (l :: loads) loads s.notes t := fun hgo =>
            ⟨hgo.inLoads, fun l' hl' => hgo.executions l' (List.mem_cons_of_mem _ hl')⟩
          cases i with
          | signal c => exact ⟨hgo hst.1, hst.2⟩
          | _ => exact hgo hst

/-- When the unit of a load has been executed, the load is over or has failed. -/
theorem conclude_leaves {notes : List LoadEvent} {token : Token} {name : String}
    {u : CompiledUnit} {p : Loading Eval.Completion}
    (h : Finishes one (l :: loads) loads notes
      (fun t => u.ok = true ∧ l.executions t.notes = u.statements.reverse) (p s)) :
    Leaves one loads loads notes (fun _ => True)
      ((cutting l p >>= conclude token name l u) s) := by
  have hsame : ∀ (l' : Load) how notes, l'.executions (.ended l how :: notes) =
      l'.executions notes := fun l' how notes => l'.executions_cons_of_ne nofun
  have hended : ∀ t how, LoadsGo one (l :: loads) loads notes t → ∀ l' ∈ loads,
      l'.executions (.ended l how :: t.notes) = l'.executions notes := fun t how hgo l' hl' =>
    (hsame l' how t.notes).trans (hgo.executions l' hl')
  change Leaves _ _ _ _ _ (EStateM.bind (cutting l p) (conclude token name l u) s)
  unfold EStateM.bind cutting
  cases hr : p s with
  | ok completion t =>
      rw [hr] at h
      cases completion with
      | completed =>
          obtain ⟨hgo, ht, hu⟩ := h
          have hover : InLoads one loads ⟨t.state, .ended l (.completed u) :: t.notes⟩ :=
            hgo.inLoads.settle hu (.inl ⟨_, List.mem_singleton_self _⟩)
          exact ⟨⟨hover, hended t _ hgo⟩, .cons nofun ht, trivial⟩
      | rejected => exact ⟨h.inLoads.fail .rejected, hended t _ h⟩
      | failed e => exact ⟨h.inLoads.fail .failed, hended t _ h⟩
  | error i t =>
      rw [hr] at h
      have hcut : LoadsGo one (l :: loads) loads notes t → (∀ e, i ≠ .error e) →
          LoadsGo one loads loads notes ⟨t.state, .ended l (.cut i) :: t.notes⟩ := fun hgo hi =>
        ⟨hgo.inLoads.settle hi (.inr ⟨i, List.mem_singleton_self _⟩), hended t _ hgo⟩
      cases i with
      | signal c => exact ⟨hcut h.1 (fun _ he => nomatch he), .cons nofun h.2⟩
      | error e => exact False.elim h
      | _ => exact hcut h (fun _ he => nomatch he)

/-- A load leaves the loads around it alone, however it ends. -/
theorem loadModule_leaves (hrun : ∀ loads site st, Keeps one loads (run loads site st))
    {levels : Nat} {loader : Ref .loader} {token : Token} {name : String} {place : RealPath}
    {source : String} (h : InLoads one loads s) (hu : Unharmed s.notes)
    (hfirst : one → loader = ⟨0⟩) (hplace : place ∈ s.state.files.places)
    (hnone : (s.state.loaders.get loader).cached? place = none) :
    Leaves one loads loads s.notes (fun _ => True)
      (loadModule run loads levels loader token name place source s) := by
  let w := s.state.enroll name loader place
  let r := w.compile levels s.state.interpreters.next place.text source
  let l : Load := ⟨loader, place, s.state.modules.next⟩
  have hl : l ∉ loads := fun hl => Nat.lt_irrefl _ (h.going l hl)
  obtain ⟨console, henroll⟩ := s.state.enroll_eq name loader place
  have hsame : w.SameObjects r.2 := w.sameObjects_compile _ _ _ _
  have hstart : InLoads one (l :: loads) ⟨r.2, .started loads l s.state :: s.notes⟩ := by
    have hwhere : Registry one (l :: loads) ⟨w, .started loads l s.state :: s.notes⟩ := by
      apply h.toRegistry.start h.stack hu hfirst hplace hnone
      case hhomes =>
        intro home
        unfold w
        rw [henroll, Arena.get_add]
        split
        · exact .inr rfl
        · exact .inl rfl
      case hmodules =>
        unfold w
        rw [henroll]
        exact Arena.size_add ..
      case hloaders =>
        unfold w
        rw [henroll]
      case hfiles =>
        unfold w
        rw [henroll]
    exact ⟨hwhere.sameObjects hsame, congrArg (l :: ·) h.stack⟩
  have hstarted : ∀ l' : Load, l'.executions (.started loads l s.state :: s.notes) =
      l'.executions s.notes := fun l' => l'.executions_cons_of_ne nofun
  have hnew : l.executions s.notes = [] :=
    Load.executions_eq_nil fun hm => Nat.lt_irrefl _ (h.mentioned l hm)
  have hexecute : Finishes one (l :: loads) loads (.started loads l s.state :: s.notes)
      (fun t => r.1.ok = true ∧ l.executions t.notes = r.1.statements.reverse)
      (execute (executing run loads l) s.state.interpreters.next r.1
        ⟨r.2, .started loads l s.state :: s.notes⟩) := by
    refine execute_finishes hstart fun t site ht hin => ?_
    have hall := executing_leaves hrun hl site r.1.statements hin (ht ▸ .cons nofun hu)
    rw [ht, hstarted, hnew, List.append_nil] at hall
    exact hall
  exact (conclude_leaves hexecute).mono fun l' _ => hstarted l'

/-- The world in which an import begins decides what it does. -/
theorem importModule_at (levels : Nat) (home : Ref .interpreter) (token : Token)
    (s : Watched World LoadEvent) : importModule run loads levels home token s =
      (match s.state.findModule home (importedModule token) with
      | .nothing => Watched.quietly (Eval.fail token (.moduleNotFound (importedModule token)))
      | .nameTooLong => Watched.quietly (Eval.crash .fileNameTooLong)
      | .entry place e =>
          match (s.state.loaders.get (s.state.interpreters.get home).loader).cached? place with
          | some m => do
              Watched.quietly
                (modify fun w => w.log (.moduleCached (importedModule token) place.text))
              return m
          | none => do
              let source ← Watched.quietly (Eval.readModule token (importedModule token) e)
              loadModule run loads levels (s.state.interpreters.get home).loader token
                (importedModule token) place source : Loading (Ref .module)) s := rfl

theorem importModule_keeps (hrun : ∀ loads site st, Keeps one loads (run loads site st))
    (levels : Nat) (home : Ref .interpreter) (token : Token) :
    Keeps one loads (importModule run loads levels home token) := by
  intro s h hu
  rw [importModule_at]
  cases hfile : s.state.findModule home (importedModule token) with
  | nothing => exact h.go
  | nameTooLong => exact h.go
  | entry place e =>
      simp only
      cases hm : (s.state.loaders.get (s.state.interpreters.get home).loader).cached? place with
      | some m =>
          have hlog : Eval.Indoors (modify fun w : World =>
              w.log (.moduleCached (importedModule token) place.text)) :=
            fun w => w.sameUnits_log _
          exact (Keeps.bind (.quietly hlog) fun _ => .pure m) s h hu
      | none =>
          have hread := Eval.readModule_same token (importedModule token) e s.state
          change Leaves _ _ _ _ _ (EStateM.bind (Watched.quietly _) _ s)
          unfold EStateM.bind Watched.quietly
          cases hr : Eval.readModule token (importedModule token) e s.state with
          | ok source w =>
              rw [hr] at hread
              subst hread
              exact loadModule_leaves hrun h hu (fun ho => h.single ho home)
                (World.findModule_places hfile) hm
          | error i w =>
              rw [hr] at hread
              subst hread
              cases i with
              | signal c => exact ⟨h.go, hu⟩
              | _ => exact h.go

end

/-! ### Trees -/

/-- Everything that is evaluated leaves the loads around it alone. -/
structure LevelKeeps (one : Prop) (patience levels : Nat) : Prop where
  expression : ∀ loads site e, Keeps one loads (expression patience levels loads site e)
  call : ∀ loads callee arguments, Keeps one loads (call patience levels loads callee arguments)
  statement : ∀ loads site st, Keeps one loads (statement patience levels loads site st)

namespace LevelKeeps
variable {patience levels : Nat}

theorem expression_succ (ih : LevelKeeps one patience levels) (loads : List Load) (site : Site)
    (e : Expr) : Keeps one loads (Loading.expression patience (levels + 1) loads site e) := by
  unfold Loading.expression
  refine .reaching ?_
  cases e with
  | literal l => exact .pure _
  | grouping inner => exact ih.expression loads site inner
  | name use => exact .quietly (Eval.inside_read site use).indoors
  | this use => exact .quietly (Eval.inside_read site use).indoors
  | assign use value =>
      exact (ih.expression loads site value).bind fun v =>
        .bind (.quietly (Eval.inside_assign site use v).indoors) fun _ => .pure _
  | unary op token operand =>
      exact (ih.expression loads site operand).bind fun v =>
        .quietly (Eval.inside_ofOperator token _).indoors
  | binary left op token right =>
      exact (ih.expression loads site left).bind fun v =>
        (ih.expression loads site right).bind fun v' =>
          .quietly (Eval.inside_ofOperator token _).indoors
  | logical left op token right =>
      refine (ih.expression loads site left).bind fun v => ?_
      by_cases h : op.decides v
      · simp only [h, if_true]
        exact .pure _
      · simp only [h]
        exact ih.expression loads site right
  | call callee paren arguments =>
      exact (ih.expression loads site callee).bind fun f =>
        (Keeps.mapM (ih.expression loads site) arguments).bind fun vs =>
          .bind (.quietly (Eval.inside_checkCall f paren _).indoors) fun _ =>
            (ih.call loads f vs).atCall
  | get object name =>
      exact (ih.expression loads site object).bind fun o =>
        .quietly (Eval.inside_property o name).indoors
  | set object name value =>
      exact (ih.expression loads site object).bind fun o =>
        .bind (.quietly (Eval.inside_checkFields o name).indoors) fun _ =>
          (ih.expression loads site value).bind fun v =>
            .bind (.quietly (Eval.inside_setProperty o name v).indoors) fun _ => .pure _
  | super use method => exact .quietly (Eval.inside_superMethod site use method).indoors
  | lambda function => exact .quietly (Eval.inside_newFunction _).indoors

theorem statement_succ (ih : LevelKeeps one patience levels) (loads : List Load) (site : Site)
    (st : Stmt) : Keeps one loads (Loading.statement patience (levels + 1) loads site st) := by
  unfold Loading.statement
  refine .reaching ?_
  cases st with
  | expression e => exact (ih.expression loads site e).bind fun _ => .pure _
  | print e => exact (ih.expression loads site e).bind fun v => .console
  | var mutability name initial =>
      cases initial with
      | none => exact .bind (.pure _) fun v => .quietly (Eval.inside_define _ _ v).indoors
      | some e =>
          exact (ih.expression loads site e).bind fun v =>
            .quietly (Eval.inside_define _ _ v).indoors
  | block body =>
      exact .bind (.quietly (Eval.inside_newScope _).indoors) fun scope =>
        .forM (fun st => ih.statement loads _ st) body
  | «if» condition thenBranch elseBranch =>
      refine (ih.expression loads site condition).bind fun v => ?_
      by_cases h : v.truthy
      · simp only [h, if_true]
        exact ih.statement loads site thenBranch
      · simp only [h]
        cases elseBranch with
        | none => exact .pure _
        | some s => exact ih.statement loads site s
  | «while» condition body increment =>
      refine .loop (.map (ih.expression loads site condition) _) (ih.statement loads site body) ?_
        patience
      cases increment with
      | none => exact .pure _
      | some e => exact .map (ih.expression loads site e) _
  | «break» keyword => exact .throw _
  | «continue» keyword => exact .throw _
  | «return» keyword value =>
      cases value with
      | none => exact .bind (.pure _) fun _ => .throw _
      | some e => exact (ih.expression loads site e).bind fun _ => .throw _
  | function f =>
      have hdefine := Eval.Inside.bind (Eval.inside_newFunction ⟨f, site.scope, site.home, false⟩)
        fun v => Eval.inside_define site.scope f.displayName v
      exact .quietly hdefine.indoors
  | «class» name parent methods =>
      exact .quietly (Eval.Inside.bind (Eval.inside_parent site parent) fun parent =>
        Eval.inside_declareClass site name parent methods).indoors
  | importModule keyword name as =>
      exact (importModule_keeps ih.statement _ site.home name).bind fun m =>
        .quietly (Eval.inside_define _ _ _).indoors

end LevelKeeps

theorem levelKeeps (one : Prop) (patience levels : Nat) : LevelKeeps one patience levels := by
  induction levels with
  | zero =>
      exact
        { expression := fun _ _ _ => .throw _
          call := fun _ _ _ => .throw _
          statement := fun _ _ _ => .throw _ }
  | succ levels ih =>
      exact
        { expression := ih.expression_succ
          call := fun loads => .callValue (ih.statement loads)
          statement := ih.statement_succ }

end Loading
end Treewalk
