import Treewalk.Proofs.Methods.Steps

/-!
# Orderly runs

Calls, units, modules and whole trees keep the world in order. A call of an initializer returns the
receiver that its scope holds, whatever the body does.
-/
namespace Treewalk

/-- Whatever a reference of a function leads to declares its names in order. -/
theorem World.Orderly.function_named {w : World} (h : w.Orderly)
    (r : Ref .function) : (Node.function (w.functions.get r).declaration).Named := by
  rcases Nat.lt_or_ge r.index w.functions.size with hlt | hge
  · exact (h.functions r hlt).named
  · rw [Arena.get_of_le _ hge]
    exact Node.named_default

/-- A file gets an interpreter with new globals. -/
theorem World.Orderly.enroll {w : World} (h : w.Orderly) (unit : String)
    (loader : Ref .loader) (place : RealPath) :
    (w.enroll unit loader place).Orderly ∧ w.Steps (w.enroll unit loader place) ∧
      w.interpreters.next.index < (w.enroll unit loader place).interpreters.size := by
  obtain ⟨console, henroll⟩ := w.enroll_eq unit loader place
  have hnew := World.Step.newGlobals (w := w)
    (i := { reporter := { unit := unit }, globals := w.scopes.next, loader := loader }) rfl
  have hsame : World.Step { w with
      scopes := (w.scopes.addChild none).define w.scopes.next clockName (.clock w.interpreters.next)
      interpreters := w.interpreters.add
        { reporter := { unit := unit }, globals := w.scopes.next, loader := loader } }
      (w.enroll unit loader place) := by
    rw [henroll]
    exact .same ⟨rfl, rfl, rfl, rfl, rfl, fun _ => rfl⟩
  refine ⟨(h.step hnew).step hsame, .trans (.single hnew) (.single hsame), ?_⟩
  rw [henroll]
  exact Nat.lt_of_lt_of_eq (Nat.lt_succ_self _) (Arena.size_add ..).symm

/-- Statements keep the world in order wherever code may run. -/
def SteadyStatements (run : Site → Stmt → Watching Unit) : Prop :=
  ∀ s site st, s.state.Orderly → s.state.Open site.scope → (Node.stmt st).Named →
    Steady (run site st) s fun _ _ => True

section
variable {s : Watched World Event} {site : Site} {run : Site → Stmt → Watching Unit}

namespace Watching

/-! ### Calls -/

theorem body_steady (site : Site) (hrun : SteadyStatements run) (h : s.state.Orderly)
    (hsite : s.state.Open site.scope) {body : List Stmt}
    (hbody : ∀ st ∈ body, (Node.stmt st).Named) :
    Steady (body.forM (run site)) s fun _ _ => True :=
  .forM (fun st hst t ht => hrun t site st ht.orderly (hsite.retain ht.retains) (hbody st hst))
    (.refl h)

/-- What a function returns was made; an initializer returns the receiver that its scope holds. -/
theorem callFunction_steady (hrun : SteadyStatements run) (h : s.state.Orderly) {f : Closure}
    {arguments : List Value} (hnamed : (Node.function f.declaration).Named)
    (hvs : ∀ v ∈ arguments, s.state.Made v) :
    Steady (callFunction run f arguments) s fun v t => t.state.Made v ∧
      (f.isInitializer = true → ∀ i, s.state.scopes.receiver? f.scope = some i →
        v = .instance i) := by
  refine (newScope_steady h (.function f.declaration) f.scope fun _ _ hr => hr).bind
    fun r t ht hr => ?_
  have hparameters : Steady ((f.declaration.parameters.zip arguments).forM fun e =>
      Watched.quietly (Eval.define r e.1.lexeme e.2)) t fun _ _ => True := by
    refine .forM (fun e he u hu => ?_) (.refl ht.orderly)
    have hname := hnamed.here _ (List.mem_map_of_mem (List.of_mem_zip he).1)
    have hv := (hvs e.2 (List.of_mem_zip he).2).retain (ht.retains.trans hu.retains)
    exact (define_steady hu.orderly (.inl hname) hv).trivially
  refine hparameters.bind fun _ u hu _ => ?_
  have hbody := body_steady ⟨f.home, r⟩ hrun hu.orderly (hr.retain hu.retains) hnamed.body
  refine (returned_yields (Q := fun v t => t.state.Made v) hbody (fun _ => trivial)
    fun _ _ hv => hv).bind fun v x hx hv => ?_
  by_cases hi : f.isInitializer = true
  · rw [if_pos hi]
    refine (loadAt_steady hx.orderly f.scope 0 "this").weaken ?_
    rintro v' y - ⟨rfl, hv', r', hr', hthis⟩
    cases hr'
    refine ⟨hv', fun _ i hfi => ?_⟩
    -- The body has not changed what the scope of the method holds.
    have hretains := (ht.retains.trans hu.retains).trans hx.retains
    have hreceiver := hretains.receiver? (Scopes.lt_of_receiver? hfi)
    rw [hfi, Scopes.receiver?_eq_some, hthis] at hreceiver
    exact Option.some.inj hreceiver
  · rw [if_neg hi]
    exact .pure (.refl hx.orderly) ⟨hv, fun he => (hi he).elim⟩

theorem newInstance_steady (h : s.state.Orderly) (c : Ref .class) :
    Steady (Watched.quietly (Eval.newInstance c)) s fun i t => i = s.state.instances.next ∧
      t.state.Made (.instance i) ∧ (t.state.instances.get i).classRef = c ∧
      t.state.classes = s.state.classes := by
  refine Steady.stepping h ⟨.newInstance c, rfl, ?_, ?_, rfl⟩
  · exact Nat.lt_of_lt_of_eq (Nat.lt_succ_self _) (Arena.size_add ..).symm
  · exact congrArg InstanceObject.classRef (Arena.get_add_next ..)

theorem callValue_steady (hrun : SteadyStatements run) (h : s.state.Orderly) {callee : Value}
    {arguments : List Value} (hvs : ∀ v ∈ arguments, s.state.Made v) :
    Steady (callValue run callee arguments) s fun v t => t.state.Made v := by
  refine Steady.looking ?_
  cases callee with
  | function r =>
      exact (callFunction_steady hrun h (h.function_named r) hvs).weaken fun _ _ _ hv => hv.1
  | «class» c =>
      refine (newInstance_steady h c).bind fun i t ht ⟨_, hi, hclass, hclasses⟩ => ?_
      cases hm : s.state.method? c "init" with
      | none => exact .pure (.refl ht.orderly) hi
      | some f =>
          obtain ⟨k, hk⟩ := h.aged.method?_eq_some.mp hm
          have hinherits : t.state.Inherits (t.state.instances.get i).classRef k := by
            rw [hclass]
            exact hk.inherits.retain ht.retains
          have hdefined := hclasses ▸ hk.defined
          refine (bound_steady ht.orderly hi hinherits hdefined).bind fun g u hu hg => ?_
          have hcall := callFunction_steady hrun hu.orderly hg.1.named fun v hv =>
            (hvs v hv).retain (ht.retains.trans hu.retains)
          exact hcall.bind fun _ x hx _ =>
            .pure (.refl hx.orderly) (hi.retain (hu.retains.trans hx.retains))
  | clock home => exact .pure (.refl h) trivial
  | _ => exact .pure (.refl h) trivial

/-! ### Units and modules -/

theorem runStatements_steady (hrun : SteadyStatements run) (h : s.state.Orderly)
    {home : Ref .interpreter} (hhome : home.index < s.state.interpreters.size) {text : UnitText}
    (hok : text.unit.ok = true) :
    Steady (runStatements run home text) s fun _ _ => True := by
  have hbody : Steady (text.unit.statements.forM
      (begin run ⟨home, s.state.globals home⟩ text)) s fun _ _ => True := by
    refine .forM (fun st hst t ht => ?_) (.refl h)
    have hnote : Steady (Watched.note (.began home text st)) t fun _ _ => True :=
      ⟨.beginning ht.orderly home text st, trivial⟩
    exact hnote.bind fun _ u hu _ => hrun u _ st hu.orderly
      ((h.globals home hhome).retain (ht.retains.trans hu.retains)) (text.named hok hst)
  unfold Steady Yields at hbody ⊢
  unfold runStatements
  cases hr : text.unit.statements.forM (begin run ⟨home, s.state.globals home⟩ text) s with
  | ok a t =>
      simp only [hr] at hbody ⊢
      exact hbody
  | error i t =>
      simp only [hr] at hbody ⊢
      cases i with
      | error e =>
          have hreport := Proceeds.step hbody.1.orderly
            (.same (t.state.sameObjects_reportRuntime home e).heap)
          exact ⟨hbody.1.trans hreport, trivial⟩
      | _ => exact hbody

theorem execute_steady (hrun : SteadyStatements run) (h : s.state.Orderly)
    {home : Ref .interpreter} (hhome : home.index < s.state.interpreters.size) (text : UnitText) :
    Steady (execute run home text) s fun _ _ => True := by
  unfold execute
  by_cases hok : text.unit.ok = true
  · rw [if_pos hok]
    have hsame := s.state.sameObjects_prepare home text.unit
    have hprepare : Steady (Watched.quietly (modify fun w => w.prepare home text.unit)) s
        fun _ t => home.index < t.state.interpreters.size :=
      Steady.stepping h ⟨.same hsame.heap, Nat.lt_of_lt_of_eq hhome hsame.size.symm⟩
    exact hprepare.bind fun _ t ht hlt => runStatements_steady hrun ht.orderly hlt hok
  · rw [if_neg hok]
    have hlog := Steady.modifying h
      (f := fun w => w.log (.notExecuted text.unit.file text.unit.errorCount))
      (.same (s.state.sameObjects_log _).heap)
    exact hlog.bind fun _ t ht _ => .pure (.refl ht.orderly) trivial

/-- A file that failed is forgotten. -/
theorem forget_steady (h : s.state.Orderly) (loader : Ref .loader) (place : RealPath)
    {token : Token} {cause : RuntimeCause} :
    Steady (do
      Watched.quietly (modify fun w => w.updateLoader loader fun l => l.forget place)
      Watched.quietly (Eval.fail token cause)) s fun (_ : Ref .module) _ => True := by
  have hforget := Steady.modifying h (f := fun w => w.updateLoader loader fun l => l.forget place)
    (.same ⟨rfl, rfl, rfl, rfl, rfl, fun _ => rfl⟩)
  exact hforget.bind fun _ t ht _ => Steady.fail ht.orderly

theorem loadModule_steady (hrun : SteadyStatements run) (h : s.state.Orderly)
    (levels : Nat) (loader : Ref .loader) (token : Token) (name : String) (place : RealPath)
    (source : String) :
    Steady (loadModule levels run loader token name place source) s fun _ _ => True := by
  obtain ⟨horderly, hsteps, hhome⟩ := h.enroll name loader place
  refine Steady.looking ?_
  have hcompile := (s.state.enroll name loader place).sameObjects_compile levels
    s.state.interpreters.next place.text source
  have hstep := World.Step.same hcompile.heap
  have hset : Steady (Watched.quietly (set ((s.state.enroll name loader place).compile levels
      s.state.interpreters.next place.text source).2)) s fun _ t =>
        s.state.interpreters.next.index < t.state.interpreters.size := by
    refine ⟨⟨horderly.step hstep, hsteps.trans (.single hstep), List.suffix_refl _,
      fun _ _ _ _ => .inl, fun _ _ => .inl⟩, ?_⟩
    exact Nat.lt_of_lt_of_eq hhome hcompile.size.symm
  refine hset.bind fun _ t ht hlt => ?_
  have hexecute := execute_steady hrun ht.orderly hlt
    ((s.state.enroll name loader place).text levels s.state.interpreters.next place.text source)
  refine hexecute.bind fun completion u hu _ => ?_
  cases completion with
  | completed => exact .pure (.refl hu.orderly) trivial
  | rejected => exact forget_steady hu.orderly loader place
  | failed e => exact forget_steady hu.orderly loader place

theorem importModule_steady (hrun : SteadyStatements run) (h : s.state.Orderly)
    (home : Ref .interpreter) (levels : Nat) (token : Token) :
    Steady (importModule levels run home token) s fun _ _ => True := by
  refine Steady.looking ?_
  cases hf : s.state.findModule home (importedModule token) with
  | nothing =>
      simp only [hf]
      exact Steady.fail h
  | nameTooLong =>
      simp only [hf]
      exact Steady.crash h
  | entry place e =>
      simp only [hf]
      cases hm : (s.state.loaders.get (s.state.interpreters.get home).loader).cached? place with
      | some m =>
          have hlog := Steady.modifying h
            (f := fun w => w.log (.moduleCached (importedModule token) place.text))
            (.same (s.state.sameObjects_log _).heap)
          exact hlog.bind fun _ t ht _ => .pure (.refl ht.orderly) trivial
      | none =>
          have hread : Steady (Watched.quietly
              (Eval.readModule token (importedModule token) e)) s fun _ _ => True := by
            refine Steady.asking h ?_
            cases e with
            | file bytes =>
                unfold Eval.readModule
                cases hd : Text.decode? bytes with
                | some source =>
                    simp only [hd]
                    exact ⟨rfl, trivial⟩
                | none =>
                    simp only [hd]
                    exact ⟨rfl, fun _ he => nomatch he⟩
            | unreadable reason => exact ⟨rfl, fun _ he => nomatch he⟩
            | directory => exact ⟨rfl, fun _ he => nomatch he⟩
          exact hread.bind fun source t ht _ =>
            loadModule_steady hrun ht.orderly levels _ token _ place source

end Watching

/-! ### Trees -/

/-- Evaluation at a nesting level keeps the world in order. -/
structure LevelSteady (patience levels : Nat) : Prop where
  expression : ∀ s site e, s.state.Orderly → s.state.Open site.scope → (Node.expr e).Named →
    Steady (Watching.expression patience levels site e) s fun v t => t.state.Made v
  call : ∀ s callee arguments, s.state.Orderly → (∀ v ∈ arguments, s.state.Made v) →
    Steady (Watching.call patience levels callee arguments) s fun v t => t.state.Made v
  statement : SteadyStatements (Watching.statement patience levels)

namespace LevelSteady
open Watching
variable {patience levels : Nat}

theorem expression_succ (ih : LevelSteady patience levels) (h : s.state.Orderly)
    (hsite : s.state.Open site.scope) {e : Expr} (hn : (Node.expr e).Named) :
    Steady (Watching.expression patience (levels + 1) site e) s fun v t => t.state.Made v := by
  refine Steady.marking h hsite hn fun t ht _ => ?_
  have hpart : ∀ e' u, (Node.expr e').Named → Proceeds t u →
      Steady (Watching.expression patience levels site e') u fun v t => t.state.Made v :=
    fun e' u hn hu => ih.expression u site e' hu.orderly
      (hsite.retain (ht.retains.trans hu.retains)) hn
  have hstart := Proceeds.refl ht.orderly
  cases e with
  | literal l => exact .pure hstart (World.made_plain l.value_plain)
  | grouping inner => exact hpart inner t (hn.part (List.mem_singleton_self _)) hstart
  | name use =>
      refine (read_steady ht.orderly site use).weaken ?_
      rintro v u - ⟨rfl, hv, -⟩
      exact hv
  | this use =>
      refine (read_steady ht.orderly site use).weaken ?_
      rintro v u - ⟨rfl, hv, -⟩
      exact hv
  | assign use value =>
      have hname := hn.here use.name.lexeme (List.mem_singleton_self _)
      refine (hpart value t (hn.part (List.mem_singleton_self _)) hstart).bind
        fun v u hu hv => ?_
      have hsu := hsite.retain (ht.retains.trans hu.retains)
      refine Steady.marking hu.orderly hsu hn fun x hx _ => ?_
      have hvx := hv.retain hx.retains
      exact (assign_steady hx.orderly site hname hvx).bind fun _ y hy _ =>
        .pure (.refl hy.orderly) (hvx.retain hy.retains)
  | unary op token operand =>
      refine (hpart operand t (hn.part (List.mem_singleton_self _)) hstart).bind
        fun v u hu _ => ?_
      exact ofOperator_steady hu.orderly token fun _ => UnaryOp.apply_plain
  | binary left op token right =>
      refine (hpart left t (hn.part (List.mem_cons_self ..)) hstart).bind fun v u hu _ => ?_
      refine (hpart right u (hn.part (List.mem_cons_of_mem _ (List.mem_singleton_self _))) hu).bind
        fun v' x hx _ => ?_
      exact ofOperator_steady hx.orderly token fun _ => BinaryOp.apply_plain
  | logical left op token right =>
      refine (hpart left t (hn.part (List.mem_cons_self ..)) hstart).bind fun v u hu hv => ?_
      by_cases hd : op.decides v = true
      · rw [if_pos hd]
        exact .pure (.refl hu.orderly) hv
      · rw [if_neg hd]
        exact hpart right u (hn.part (List.mem_cons_of_mem _ (List.mem_singleton_self _))) hu
  | call callee paren arguments =>
      refine (hpart callee t (hn.part (List.mem_cons_self ..)) hstart).bind fun f u hu hf => ?_
      have harguments : Steady (arguments.mapM (Watching.expression patience levels site)) u
          fun vs x => ∀ v ∈ vs, x.state.Made v :=
        .mapM (fun e he x hx => hpart e x
          (hn.part (List.mem_cons_of_mem _ (List.mem_map_of_mem he))) (hu.trans hx))
          (fun _ _ _ hx hv => hv.retain hx.retains) (.refl hu.orderly)
      refine harguments.bind fun vs x hx hvs => ?_
      refine (checkCall_steady hx.orderly f paren vs.length).bind fun _ y hy he => ?_
      subst he
      exact atCall_yields (ih.call y f vs hy.orderly hvs) fun _ _ => trivial
  | get object name =>
      exact (hpart object t (hn.part (List.mem_singleton_self _)) hstart).bind fun o u hu ho =>
        property_steady hu.orderly name ho
  | set object name value =>
      have hname := hn.here name.lexeme (List.mem_singleton_self _)
      refine (hpart object t (hn.part (List.mem_cons_self ..)) hstart).bind fun o u hu _ => ?_
      refine (checkFields_steady hu.orderly o name).bind fun _ x hx _ => ?_
      have hux := hu.trans hx
      refine (hpart value x (hn.part (List.mem_cons_of_mem _ (List.mem_singleton_self _)))
        hux).bind fun v y hy hv => ?_
      have hsy := hsite.retain (ht.retains.trans (hux.trans hy).retains)
      refine Steady.marking hy.orderly hsy hn fun z hz _ => ?_
      have hvz := hv.retain hz.retains
      exact (setProperty_steady hz.orderly o hname hvz).bind fun _ z' hz' _ =>
        .pure (.refl hz'.orderly) (hvz.retain hz'.retains)
  | super use method => exact superMethod_steady ht.orderly site use method
  | lambda f =>
      have hopen := hsite.retain ht.retains
      have hf : (Node.function f).Named := hn.part (List.mem_singleton_self _)
      exact newFunction_steady ht.orderly ⟨hopen.lt, hf, .inl ⟨rfl, hopen.held⟩⟩

theorem statement_succ (ih : LevelSteady patience levels) (h : s.state.Orderly)
    (hsite : s.state.Open site.scope) {st : Stmt} (hn : (Node.stmt st).Named) :
    Steady (Watching.statement patience (levels + 1) site st) s fun _ _ => True := by
  refine Steady.marking h hsite hn fun t ht hts => ?_
  have hopen := hsite.retain ht.retains
  have hpart : ∀ e' u, (Node.expr e').Named → Proceeds t u →
      Steady (Watching.expression patience levels site e') u fun v t => t.state.Made v :=
    fun e' u hn hu => ih.expression u site e' hu.orderly (hopen.retain hu.retains) hn
  have hbranch : ∀ st' u, (Node.stmt st').Named → Proceeds t u →
      Steady (Watching.statement patience levels site st') u fun _ _ => True :=
    fun st' u hn hu => ih.statement u site st' hu.orderly (hopen.retain hu.retains) hn
  have hstart := Proceeds.refl ht.orderly
  cases st with
  | expression e =>
      exact (hpart e t (hn.part (List.mem_singleton_self _)) hstart).bind fun _ u hu _ =>
        .pure (.refl hu.orderly) trivial
  | print e =>
      refine (hpart e t (hn.part (List.mem_singleton_self _)) hstart).bind fun v u hu _ => ?_
      exact Steady.modifying hu.orderly
        (f := fun w => { w with console := w.console.print (w.display v) })
        (.same (u.state.sameObjects_console _).heap)
  | var mutability name initial =>
      have hname := hn.here name.lexeme (List.mem_singleton_self _)
      have hrest : ∀ v u, Proceeds t u → u.state.Made v →
          Steady (do
            Watched.quietly (Eval.define site.scope name.lexeme v)
            mark .declared site (.stmt (.var mutability name initial))) u fun _ _ => True := by
        intro v u hu hv
        refine (define_steady hu.orderly (.inl hname) hv).bind fun _ x hx _ => ?_
        exact ⟨.noting hx.orderly (hopen.retain (hu.retains.trans hx.retains)) hn, trivial⟩
      cases initial with
      | none => exact hrest .nil t hstart trivial
      | some e => exact (hpart e t (hn.inner [] .initial) hstart).bind hrest
  | block body =>
      refine (newScope_steady ht.orderly (.block body) site.scope fun _ _ hr => hr).bind
        fun r u hu hr => ?_
      exact body_steady ⟨site.home, r⟩ ih.statement hu.orderly hr hn.block
  | «if» condition thenBranch elseBranch =>
      refine (hpart condition t (hn.part (List.mem_cons_self ..)) hstart).bind fun v u hu _ => ?_
      by_cases hv : v.truthy = true
      · rw [if_pos hv]
        exact hbranch thenBranch u (hn.part (by simp [Node.parts, Stmt.parts])) hu
      · rw [if_neg hv]
        cases elseBranch with
        | none => exact .pure (.refl hu.orderly) trivial
        | some st => exact hbranch st u (hn.part (by simp [Node.parts, Stmt.parts])) hu
  | «while» condition body increment =>
      refine loop_yields (fun u hu => ?_) (fun u hu => ?_) (fun u hu => ?_) (fun _ => trivial)
        hstart patience
      · exact (hpart condition u (hn.part (List.mem_cons_self ..)) hu).map fun _ _ _ _ => trivial
      · exact hbranch body u (hn.part (by simp [Node.parts, Stmt.parts])) hu
      · cases increment with
        | none => exact .pure (.refl hu.orderly) trivial
        | some e =>
            exact (hpart e u (hn.part (by simp [Node.parts, Stmt.parts])) hu).map
              fun _ _ _ _ => trivial
  | «break» token => exact .throw hstart trivial
  | «continue» token => exact .throw hstart trivial
  | «return» token value =>
      cases value with
      | none => exact .throw hstart trivial
      | some e =>
          exact (hpart e t (hn.part (List.mem_singleton_self _)) hstart).bind fun v u hu hv =>
            .throw (.refl hu.orderly) hv
  | function f =>
      have hname := hn.here f.displayName (List.mem_singleton_self _)
      have hf : (Node.function f).Named := hn.inner [] .declared
      have hnew := newFunction_steady ht.orderly (f := ⟨f, site.scope, site.home, false⟩)
        ⟨hopen.lt, hf, .inl ⟨rfl, hopen.held⟩⟩
      simp only [Watched.quietly_bind]
      exact hnew.bind fun v u hu hv => (define_steady hu.orderly (.inl hname) hv).trivially
  | «class» name use methods =>
      have hname := hn.here name.lexeme (List.mem_singleton_self _)
      cases use with
      | none =>
          have hnone : ∀ c, (none : Option (Ref .class)) = some c →
              t.state.Made (.class c) ∧ Inheriting t.notes site name methods c :=
            fun c he => (Option.some_ne_none c he.symm).elim
          exact declareClass_steady ht.orderly hopen hname hn.method hnone
      | some use =>
          have huse : (Node.expr (.name use)).Named :=
            hn.part (List.mem_singleton_self _)
          refine ((superclass_steady ht.orderly hopen huse).map (f := some)
            (R := fun p u => ∀ c, p = some c →
              u.state.Made (.class c) ∧ Inheriting u.notes site name methods c) ?_).bind
            fun p u hu hp =>
              declareClass_steady hu.orderly (hopen.retain hu.retains) hname hn.method hp
          rintro c u hu ⟨hc, hnotes, hread⟩ c' he
          cases he
          exact ⟨hc, use, t.state, s.notes, hread, by rw [hnotes, hts]⟩
  | importModule keyword name as =>
      have himport := importModule_steady ih.statement ht.orderly site.home (2 * levels) name
      refine himport.bind fun m u hu _ => ?_
      exact (define_steady hu.orderly (.inr ⟨(hopen.retain hu.retains).held, m, rfl⟩)
        trivial).trivially

end LevelSteady

/-- Evaluation keeps the world in order, whatever the levels. -/
theorem levelSteady (patience levels : Nat) : LevelSteady patience levels := by
  induction levels with
  | zero =>
      constructor
      · exact fun s site e h _ _ => .throw (.refl h) trivial
      · exact fun s callee vs h _ => .throw (.refl h) trivial
      · exact fun s site st h _ _ => .throw (.refl h) trivial
  | succ levels ih =>
      constructor
      · exact fun s site e h hsite hn => ih.expression_succ h hsite hn
      · exact fun s callee vs h hvs => Watching.callValue_steady ih.statement h hvs
      · exact fun s site st h hsite hn => ih.statement_succ h hsite hn

end
end Treewalk
