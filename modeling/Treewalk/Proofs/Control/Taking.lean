import Treewalk.Proofs.Control.Signals

/-!
# Evaluation among handlers

What surrounds a statement in the text surrounds it in the run: a statement in a loop runs with the
loop as the innermost handler, a statement in a function with an activation of the function outside
of such loops only. By induction on the nesting every signal that is raised is pending for its taker.
-/
namespace Treewalk

/-- If a statement may leave a loop or a function, the handlers are there for it. -/
structure Ready (handlers : List Handler) (inLoop inFunction : Bool) (st : Stmt) : Prop where
  loop : inLoop = true → ∃ h, Signal.break.taker? handlers = some h ∧
    Signal.continue.taker? handlers = some h ∧ h.Encloses st
  function : inFunction = true → ∀ v, ∃ h, (Signal.return v).taker? handlers = some h ∧
    h.Encloses st

namespace Ready
variable {handlers : List Handler} {inLoop inFunction : Bool} {st st' : Stmt}

theorem inner (h : Ready handlers inLoop inFunction st) (hst : ∀ loops, st.Holds loops st') :
    Ready handlers inLoop inFunction st' := by
  constructor
  · intro hl
    obtain ⟨taker, hbreak, hcontinue, hencloses⟩ := h.loop hl
    exact ⟨taker, hbreak, hcontinue, hencloses.inner (hst false) (hst true)⟩
  · intro hf v
    obtain ⟨taker, hreturn, hencloses⟩ := h.function hf v
    exact ⟨taker, hreturn, hencloses.inner (hst false) (hst true)⟩

/-- A return is taken outside of all loops. -/
theorem of_return {v : Value} {h : Handler} (htaker : (Signal.return v).taker? handlers = some h)
    (hst : h.Encloses st) (hin : ∀ loops, st.Holds loops st' ∨ loops = false) : h.Encloses st' := by
  induction handlers with
  | nil => cases htaker
  | cons h' outer ih =>
      cases h' with
      | loop k t => exact ih htaker
      | activation k f =>
          cases htaker
          obtain ⟨s, hs, hheld⟩ := hst
          refine ⟨s, hs, hheld.trans ?_⟩
          exact (hin true).resolve_right nofun
      | unit k u => cases htaker

/-- The body of a loop runs in the loop. -/
theorem body {k : Nat} {condition : Expr} {increment : Option Expr}
    (h : Ready handlers inLoop inFunction (.while condition st increment)) :
    Ready (.loop k (.while condition st increment) :: handlers) true inFunction st := by
  constructor
  · exact fun _ => ⟨.loop k (.while condition st increment), rfl, rfl, .refl⟩
  · intro hf v
    obtain ⟨taker, hreturn, hencloses⟩ := h.function hf v
    refine ⟨taker, hreturn, of_return hreturn hencloses fun loops => ?_⟩
    cases loops with
    | false => exact .inr rfl
    | true => exact .inl (.while rfl .refl)

/-- The statements of a function run in its activation. -/
theorem activation {k : Nat} {f : FunctionDecl} (hst : st ∈ f.body) :
    Ready (.activation k f :: handlers) false true st :=
  ⟨nofun, fun _ _ => ⟨.activation k f, rfl, st, hst, .refl⟩⟩

/-- The statements of a unit need no handler. -/
theorem unit : Ready handlers false false st := ⟨nofun, nofun⟩

end Ready

/-- All of the handlers are known. -/
def Known (handlers : List Handler) (notes : List ControlEvent) : Prop :=
  ∀ h ∈ handlers, .entered h ∈ notes

theorem Known.grow {handlers : List Handler} {notes notes' : List ControlEvent}
    (h : Known handlers notes) (hn : notes ⊆ notes') : Known handlers notes' :=
  fun k hk => hn (h k hk)

theorem Known.entered {handlers : List Handler} {h : Handler} {notes : List ControlEvent}
    (hk : Known handlers notes) (hh : .entered h ∈ notes) : Known (h :: handlers) notes :=
  List.forall_mem_cons.mpr ⟨hh, hk⟩

/-- Statements leave no signal but to the handlers around them. -/
def Runs (run : List Handler → Site → Stmt → Handling Unit) : Prop :=
  ∀ (handlers : List Handler) (site : Site) (inLoop inFunction : Bool) (st : Stmt)
    (s : Watched World ControlEvent), Fair s → Known handlers s.notes →
    Node.Legal inLoop inFunction (.stmt st) → Ready handlers inLoop inFunction st →
    Handled handlers (run handlers site st) s fun _ => True

namespace Handled
variable {α : Type} {handlers : List Handler} {run : List Handler → Site → Stmt → Handling Unit}
  {s : Watched World ControlEvent}

/-- A signal for which there is a handler is raised. -/
theorem raise {st : Stmt} {c : Signal} {h : Handler} (hfair : Fair s)
    (hknown : Known handlers s.notes) (htaker : c.taker? handlers = some h)
    (hst : h.Encloses st) {Q : α → Prop} :
    Handled handlers (Handling.raise handlers st c : Handling α) s Q :=
  ⟨fun _ hv => List.mem_cons_of_mem _ hv, hfair.lawful, h, htaker,
    .intro htaker hst (hknown h (Signal.taker?_mem htaker)) hfair.orderly⟩

/-- The world changes, but for its functions and classes. -/
theorem changing {f : World → World} (h : Fair s) (hf : ∀ w, (f w).functions = w.functions)
    (hc : ∀ w, (f w).classes = w.classes) :
    Handled handlers (Watched.quietly (modify f)) s fun _ => True :=
  quietly h (Eval.Quiet.modify hf hc)

/-! ### Calls -/

theorem callFunction (hrun : Runs run) {f : Closure} (hf : f.declaration.Legal)
    (arguments : List Value) (h : Fair s) (hknown : Known handlers s.notes) :
    Handled [] (Handling.callFunction handlers run f arguments) s fun _ => True := by
  refine leaving ((quietly h (Eval.quiet_newScope f.scope)).bind fun scope t hst ht _ => ?_)
  have hbind : Handled [] ((f.declaration.parameters.zip arguments).forM fun pv =>
      Watched.quietly (Eval.define scope pv.1.lexeme pv.2)) t fun _ => True :=
    forM (fun pv _ u _ hu => quietly hu (Eval.quiet_define scope pv.1.lexeme pv.2)) ht
  refine hbind.bind fun _ u htu hu _ => ?_
  refine entering hu rfl fun x _ hux hentered hx => ?_
  have hall : Known (.activation u.notes.length f.declaration :: handlers) x.notes :=
    (hknown.grow fun _ hv => hux (htu (hst hv))).entered hentered
  have hbody : Handled (.activation u.notes.length f.declaration :: handlers)
      (f.declaration.body.forM (run _ ⟨f.home, scope⟩)) x fun _ => True :=
    forM (fun st hst y hxy hy => hrun _ _ false true st y hy (hall.grow hxy) (hf st hst)
      (.activation hst)) hx
  refine (returned hbody).bind fun v y _ hy _ => ?_
  by_cases hi : f.isInitializer = true
  · rw [if_pos hi]
    exact quietly hy (Eval.quiet_loadAt f.scope 0 "this")
  · rw [if_neg hi]
    exact .pure hy trivial

theorem construct (hrun : Runs run) {c : Ref .class} {init : Option Closure}
    (hinit : ∀ f ∈ init, f.declaration.Legal) (arguments : List Value) (h : Fair s)
    (hknown : Known handlers s.notes) :
    Handled [] (Handling.construct handlers run c init arguments) s fun _ => True := by
  refine leaving ((quietly h (Eval.quiet_newInstance c)).bind fun i t hst ht _ => ?_)
  cases init with
  | none => exact .pure ht trivial
  | some f =>
      refine (quietly ht (Eval.quiet_bound (hinit f rfl) i)).bind fun g u htu hu hg => ?_
      have hcall := callFunction hrun hg arguments hu (hknown.grow fun _ hv => htu (hst hv))
      exact hcall.bind fun _ x _ hx _ => .pure hx trivial

theorem callValue (hrun : Runs run) (callee : Value) (arguments : List Value) (h : Fair s)
    (hknown : Known handlers s.notes) :
    Handled [] (Handling.callValue handlers run callee arguments) s fun _ => True := by
  refine looking ?_
  cases callee with
  | function r => exact callFunction hrun (h.lawful.functions r) arguments h hknown
  | «class» r => exact construct hrun (fun f hf => h.lawful.method hf) arguments h hknown
  | _ => exact .pure h trivial

/-! ### Units and modules -/

theorem runStatements (hrun : Runs run) {home : Ref .interpreter} {u : CompiledUnit}
    (hu : ∀ st ∈ u.statements, Node.Legal false false (.stmt st)) (h : Fair s)
    (hknown : Known handlers s.notes) :
    Handled [] (Handling.runStatements handlers run home u) s fun _ => True := by
  refine leaving (entering h rfl fun t _ hst hentered ht => looking ?_)
  have hall : Known (.unit s.notes.length u :: handlers) t.notes := (hknown.grow hst).entered hentered
  have hbody : Handled (.unit s.notes.length u :: handlers)
      (u.statements.forM (run _ ⟨home, t.state.globals home⟩)) t fun _ => True :=
    forM (fun st hin x htx hx => hrun _ _ false false st x hx (hall.grow htx) (hu st hin) .unit) ht
  exact finishing hbody

theorem execute (hrun : Runs run) {home : Ref .interpreter} (text : UnitText) (h : Fair s)
    (hknown : Known handlers s.notes) :
    Handled [] (Handling.execute handlers run home text.unit) s fun _ => True := by
  unfold Handling.execute
  by_cases hok : text.unit.ok = true
  · rw [if_pos hok]
    refine bind (R := fun _ => True) (changing h (fun _ => rfl) fun _ => rfl) fun _ t hst ht _ => ?_
    exact runStatements hrun (UnitText.legal hok) ht (hknown.grow hst)
  · rw [if_neg hok]
    exact bind (R := fun _ => True) (changing h (fun _ => rfl) fun _ => rfl) fun _ t _ ht _ =>
      .pure ht trivial

theorem loadModule (hrun : Runs run) {levels : Nat} {loader : Ref .loader} {token : Token}
    {name : String} {place : RealPath} {source : String} (h : Fair s)
    (hknown : Known handlers s.notes) :
    Handled [] (Handling.loadModule handlers run levels loader token name place source) s
      fun _ => True := by
  refine looking ?_
  have hadd := (h.lawful.alike (s.state.alike_log (.moduleLoading name place.text))).addInterpreter
    name loader
  simp only
  generalize (s.state.log (.moduleLoading name place.text)).addInterpreter name loader = w at *
  have hregister : World.Lawful (({ w with
      modules := w.modules.add ⟨name, place.text, s.state.interpreters.next⟩ } : World).updateLoader
        loader fun l => l.register place s.state.modules.next) := hadd.of_eq rfl rfl
  refine bind (R := fun _ => True)
    (quietly h fun _ _ => ⟨hregister.alike (World.alike_compile _ _ _ _ _), trivial⟩)
    fun _ t hst ht _ => ?_
  rw [World.compile_fst]
  refine (execute hrun _ ht (hknown.grow hst)).bind fun completion u _ hu _ => ?_
  have hfailing : ∀ cause, Handled [] (do
      Watched.quietly (modify fun w : World => w.updateLoader loader fun l => l.forget place)
      Watched.quietly (Eval.fail token cause) : Handling (Ref .module)) u fun _ => True :=
    fun cause => bind (R := fun _ => True) (changing hu (fun _ => rfl) fun _ => rfl)
      fun _ x _ hx _ => quietly hx (.fail token cause)
  cases completion with
  | completed => exact .pure hu trivial
  | rejected => exact hfailing _
  | failed e => exact hfailing _

theorem importModule (hrun : Runs run) {levels : Nat} {home : Ref .interpreter} {token : Token}
    (h : Fair s) (hknown : Known handlers s.notes) :
    Handled [] (Handling.importModule handlers run levels home token) s fun _ => True := by
  refine leaving (looking ?_)
  cases hfile : s.state.findModule home (importedModule token) with
  | nothing =>
      simp only [hfile]
      exact quietly h (.fail _ _)
  | nameTooLong =>
      simp only [hfile]
      exact quietly h (.crash _)
  | entry place e =>
      cases hm : (s.state.loaders.get (s.state.interpreters.get home).loader).cached? place with
      | some m =>
          simp only [hfile, hm]
          exact bind (R := fun _ => True) (changing h (fun _ => rfl) fun _ => rfl)
            fun _ t _ ht _ => .pure ht trivial
      | none =>
          simp only [hfile, hm]
          exact (quietly h (Eval.quiet_readModule token _ e)).bind fun source t hst ht _ =>
            loadModule hrun ht (hknown.grow hst)

end Handled

/-! ### Trees -/

/-- Expressions and calls leave no signal, statements none but to the handlers around them. -/
structure LevelTaken (patience levels : Nat) : Prop where
  expression : ∀ (handlers : List Handler) (site : Site) (inLoop inFunction : Bool) (e : Expr)
    (s : Watched World ControlEvent), Fair s → Known handlers s.notes →
    Node.Legal inLoop inFunction (.expr e) →
    Handled [] (Handling.expression patience levels handlers site e) s fun _ => True
  call : ∀ (handlers : List Handler) (callee : Value) (arguments : List Value)
    (s : Watched World ControlEvent), Fair s → Known handlers s.notes →
    Handled [] (Handling.call patience levels handlers callee arguments) s fun _ => True
  statement : Runs (Handling.statement patience levels)

namespace LevelTaken
variable {patience levels : Nat} {handlers : List Handler} {site : Site}
  {inLoop inFunction : Bool} {s : Watched World ControlEvent}

theorem part (ih : LevelTaken patience levels) {e e' : Expr} (h : Fair s)
    (hknown : Known handlers s.notes) (hlegal : Node.Legal inLoop inFunction (.expr e))
    (he : .expr e' ∈ e.parts) :
    Handled [] (Handling.expression patience levels handlers site e') s fun _ => True := by
  cases hlegal with
  | expr hparts => exact ih.expression handlers site _ _ e' s h hknown (hparts _ he)

theorem expression_succ (ih : LevelTaken patience levels) (e : Expr) (h : Fair s)
    (hknown : Known handlers s.notes) (hlegal : Node.Legal inLoop inFunction (.expr e)) :
    Handled [] (Handling.expression patience (levels + 1) handlers site e) s fun _ => True := by
  unfold Handling.expression
  cases e with
  | literal l => exact .pure h trivial
  | grouping inner => exact ih.part h hknown hlegal (List.mem_singleton_self _)
  | name use => exact .quietly h (Eval.quiet_read site use)
  | this use => exact .quietly h (Eval.quiet_read site use)
  | assign use value =>
      refine (ih.part h hknown hlegal (List.mem_singleton_self _)).bind fun v t _ ht _ => ?_
      exact (Handled.quietly ht (Eval.quiet_assign site use v)).bind fun _ u _ hu _ => .pure hu trivial
  | unary op token operand =>
      refine (ih.part h hknown hlegal (List.mem_singleton_self _)).bind fun v t _ ht _ => ?_
      exact .quietly ht (Eval.quiet_ofOperator token _)
  | binary left op token right =>
      refine (ih.part h hknown hlegal (List.mem_cons_self ..)).bind fun v t hst ht _ => ?_
      refine (ih.part ht (hknown.grow hst) hlegal
        (List.mem_cons_of_mem _ (List.mem_singleton_self _))).bind fun v' u _ hu _ => ?_
      exact .quietly hu (Eval.quiet_ofOperator token _)
  | logical left op token right =>
      refine (ih.part h hknown hlegal (List.mem_cons_self ..)).bind fun v t hst ht _ => ?_
      by_cases hd : op.decides v = true
      · rw [if_pos hd]
        exact .pure ht trivial
      · rw [if_neg hd]
        exact ih.part ht (hknown.grow hst) hlegal
          (List.mem_cons_of_mem _ (List.mem_singleton_self _))
  | call callee paren arguments =>
      refine (ih.part h hknown hlegal (List.mem_cons_self ..)).bind fun f t hst ht _ => ?_
      have harguments : Handled [] (arguments.mapM (Handling.expression patience levels handlers
          site)) t fun _ => True :=
        .mapM (fun e he u htu hu => ih.part hu (hknown.grow fun _ hv => htu (hst hv)) hlegal
          (List.mem_cons_of_mem _ (List.mem_map_of_mem he))) ht
      have hcall : ∀ vs u, t.notes ⊆ u.notes → Fair u → Handled [] (do
          Watched.quietly (Eval.checkCall f paren vs.length)
          Handling.atCall paren (Handling.call patience levels handlers f vs)) u fun _ => True :=
        fun vs u htu hu => (Handled.quietly hu (Eval.quiet_checkCall f paren vs.length)).bind
          fun _ x hux hx _ =>
            (ih.call handlers f vs x hx (hknown.grow fun _ hv => hux (htu (hst hv)))).atCall
      exact harguments.bind fun vs u htu hu _ => hcall vs u htu hu
  | get object name =>
      refine (ih.part h hknown hlegal (List.mem_singleton_self _)).bind fun o t _ ht _ => ?_
      exact .quietly ht (Eval.quiet_property o name)
  | set object name value =>
      refine (ih.part h hknown hlegal (List.mem_cons_self ..)).bind fun o t hst ht _ => ?_
      refine (Handled.quietly ht (Eval.quiet_checkFields o name)).bind fun _ u htu hu _ => ?_
      refine (ih.part hu (hknown.grow fun _ hv => htu (hst hv)) hlegal
        (List.mem_cons_of_mem _ (List.mem_singleton_self _))).bind fun v x _ hx _ => ?_
      exact (Handled.quietly hx (Eval.quiet_setProperty o name v)).bind fun _ y _ hy _ =>
        .pure hy trivial
  | super use method => exact .quietly h (Eval.quiet_superMethod site use method)
  | lambda f =>
      cases hlegal with
      | expr hparts =>
          exact .quietly h (Eval.quiet_newFunction (hparts _ (List.mem_singleton_self _)).body)

theorem while_taken (ih : LevelTaken patience levels) {condition : Expr} {body : Stmt}
    {increment : Option Expr} (h : Fair s) (hknown : Known handlers s.notes) :
    Node.Legal inLoop inFunction (.stmt (.while condition body increment)) →
    Ready handlers inLoop inFunction (.while condition body increment) →
    Handled handlers (do
      let h ← Handling.enter (.loop · (.while condition body increment))
      let test := Value.truthy <$> Handling.expression patience levels handlers site condition
      let advance :=
        match increment with
        | some e => discard (Handling.expression patience levels handlers site e)
        | none => pure ()
      Handling.loop h test (Handling.statement patience levels (h :: handlers) site body) advance
        patience) s fun _ => True := by
  intro hlegal hready
  cases hlegal with
  | «while» hcondition hbody hincrement =>
      refine .entering h rfl fun t _ hst hentered ht => .loop ?_ ?_ ?_ ht
      · exact fun u htu hu => (ih.expression handlers site _ _ condition u hu
          (hknown.grow fun _ hv => htu (hst hv)) hcondition).map fun _ _ => trivial
      · exact fun u htu hu => ih.statement _ site _ _ body u hu
          (((hknown.grow hst).entered hentered).grow htu) hbody hready.body
      · intro u htu hu
        cases increment with
        | none => exact .pure hu trivial
        | some e => exact (ih.expression handlers site _ _ e u hu
            (hknown.grow fun _ hv => htu (hst hv)) (hincrement e rfl)).map fun _ _ => trivial

/-- What is done with the value of an initializer or of a return. -/
theorem value_taken (ih : LevelTaken patience levels) {value : Option Expr} (h : Fair s)
    (hknown : Known handlers s.notes) {rest : Value → Handling Unit}
    (hrest : ∀ v t, s.notes ⊆ t.notes → Fair t → Handled handlers (rest v) t fun _ => True) :
    (∀ e ∈ value, Node.Legal inLoop inFunction (.expr e)) →
    Handled handlers (do
      let v ←
        match value with
        | some e => Handling.expression patience levels handlers site e
        | none => pure .nil
      rest v) s fun _ => True := by
  intro hlegal
  cases value with
  | none => exact hrest .nil s (fun _ hv => hv) h
  | some e =>
      have hvalue := ih.expression handlers site _ _ e s h hknown (hlegal e rfl)
      exact hvalue.anywhere.bind fun v t hst ht _ => hrest v t hst ht

theorem statement_succ (ih : LevelTaken patience levels) (st : Stmt) (h : Fair s)
    (hknown : Known handlers s.notes) (hlegal : Node.Legal inLoop inFunction (.stmt st))
    (hready : Ready handlers inLoop inFunction st) :
    Handled handlers (Handling.statement patience (levels + 1) handlers site st) s
      fun _ => True := by
  have hexpression : ∀ e, Node.Legal inLoop inFunction (.expr e) →
      Handled handlers (Handling.expression patience levels handlers site e) s fun _ => True :=
    fun e he => (ih.expression handlers site _ _ e s h hknown he).anywhere
  unfold Handling.statement
  cases hlegal with
  | expression he => exact (hexpression _ he).bind fun _ t _ ht _ => .pure ht trivial
  | print he =>
      refine (hexpression _ he).bind fun v t _ ht _ => ?_
      exact .changing ht (fun _ => rfl) fun _ => rfl
  | var hinitial =>
      exact ih.value_taken h hknown (fun v t _ ht => .quietly ht (Eval.quiet_define _ _ v)) hinitial
  | block hbody =>
      refine (Handled.quietly h (Eval.quiet_newScope site.scope)).bind fun scope t hst ht _ => ?_
      exact .forM (fun st hin u htu hu => ih.statement handlers _ _ _ st u hu
        (hknown.grow fun _ hv => htu (hst hv)) (hbody st hin)
        (hready.inner fun _ => .block hin .refl)) ht
  | «if» hcondition hthen helse =>
      rename_i condition thenBranch elseBranch
      refine (hexpression _ hcondition).bind fun v t hst ht _ => ?_
      by_cases hv : v.truthy = true
      · rw [if_pos hv]
        exact ih.statement handlers site _ _ thenBranch t ht (hknown.grow hst) hthen
          (hready.inner fun _ => .thenBranch .refl)
      · rw [if_neg hv]
        cases elseBranch with
        | none => exact .pure ht trivial
        | some st =>
            exact ih.statement handlers site _ _ st t ht (hknown.grow hst) (helse st rfl)
              (hready.inner fun _ => .elseBranch .refl)
  | «while» hcondition hbody hincrement =>
      exact ih.while_taken h hknown (.while hcondition hbody hincrement) hready
  | «break» =>
      obtain ⟨taker, hbreak, -, hencloses⟩ := hready.loop rfl
      exact .raise h hknown hbreak hencloses
  | «continue» =>
      obtain ⟨taker, -, hcontinue, hencloses⟩ := hready.loop rfl
      exact .raise h hknown hcontinue hencloses
  | «return» hvalue =>
      refine ih.value_taken h hknown (fun v t hst ht => ?_) hvalue
      obtain ⟨taker, hreturn, hencloses⟩ := hready.function rfl v
      exact .raise ht (hknown.grow hst) hreturn hencloses
  | declaration hf =>
      exact .quietly h (.bind (Eval.quiet_newFunction hf.body) fun v _ => Eval.quiet_define _ _ v)
  | «class» hmethods =>
      rename_i name parent methods
      have hparent : Eval.Quiet (parent.mapM (Eval.superclass site)) fun _ => True := by
        cases parent with
        | none => exact .pure trivial
        | some use => exact .bind (Eval.quiet_superclass site use) fun _ _ => .pure trivial
      exact .quietly h (.bind hparent fun parent _ =>
        Eval.quiet_declareClass site name parent fun f hf => (hmethods f hf).body)
  | importModule =>
      rename_i keyword name as
      refine (Handled.importModule ih.statement h hknown).anywhere.bind fun m t _ ht _ => ?_
      exact .quietly ht (Eval.quiet_define _ _ _)

end LevelTaken

/-- Every signal is taken, whatever the levels. -/
theorem levelTaken (patience levels : Nat) : LevelTaken patience levels := by
  induction levels with
  | zero =>
      constructor
      · exact fun _ _ _ _ _ _ h _ _ => .throw h nofun
      · exact fun _ _ _ _ h _ => .throw h nofun
      · exact fun _ _ _ _ _ _ h _ _ _ => .throw h nofun
  | succ levels ih =>
      constructor
      · exact fun _ _ _ _ e _ h hknown hlegal => ih.expression_succ e h hknown hlegal
      · exact fun _ callee vs _ h hknown => .callValue ih.statement callee vs h hknown
      · exact fun _ _ _ _ st _ h hknown hlegal hready => ih.statement_succ st h hknown hlegal hready

end Treewalk
