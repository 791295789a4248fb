import Treewalk.Proofs.Reach.Steps

/-!
# Runs within a region

Calls, units, modules and whole trees are contained in every region in which they start: functions
that can be called run within, and modules are run by interpreters that are new and use the same
loader.
-/
namespace Treewalk

/-- Statements are contained where they run. -/
def ContainedStatements (M : Thing → Prop) (w₀ : World) (L : Ref .loader)
    (run : Site → Stmt → Watching Unit) : Prop :=
  ∀ s site st, Framed M w₀ L s.state → Sited M w₀ L s.state site →
    Contained M w₀ L (run site st) s fun _ _ => True

section
variable {M : Thing → Prop} {w₀ : World} {L : Ref .loader} {s : Watched World Event}
  {site : Site} {run : Site → Stmt → Watching Unit}

namespace Watching

/-! ### Calls -/

theorem body_contained (site : Site) (hrun : ContainedStatements M w₀ L run)
    (h : Framed M w₀ L s.state) (hs : Sited M w₀ L s.state site) (body : List Stmt) :
    Contained M w₀ L (body.forM (run site)) s fun _ _ => True :=
  .forM (fun st _ t ht => hrun t site st ht.framed (hs.grow ht.grown)) h

theorem callFunction_contained (hrun : ContainedStatements M w₀ L run)
    (h : Framed M w₀ L s.state) {f : Closure} {arguments : List Value}
    (hscope : s.state.Mine M w₀ (.scope f.scope))
    (hhome : s.state.Homed L (s.state.Mine M w₀) f.home)
    (hvs : ∀ v ∈ arguments, s.state.Mine M w₀ (.value v)) :
    Contained M w₀ L (callFunction run f arguments) s fun v w => w.Mine M w₀ (.value v) := by
  refine (newScope_contained h (.function f.declaration) hscope).bind fun r t ht hr => ?_
  have hparameters : Contained M w₀ L ((f.declaration.parameters.zip arguments).forM fun e =>
      Watched.quietly (Eval.define r e.1.lexeme e.2)) t fun _ _ => True := by
    refine .forM (fun e he u hu => ?_) ht.framed
    have hv := hvs e.2 (List.of_mem_zip he).2
    exact define_contained hu.framed e.1.lexeme (hr.grow hu.grown)
      (hv.grow (ht.grown.trans hu.grown))
  refine hparameters.bind fun _ u hu _ => ?_
  have hsite : Sited M w₀ L u.state ⟨f.home, r⟩ :=
    ⟨hr.grow hu.grown, hhome.grow (ht.grown.trans hu.grown)⟩
  have hbody := returned_contained (body_contained _ hrun hu.framed hsite f.declaration.body)
  refine hbody.bind fun v x hx hv => ?_
  by_cases hi : f.isInitializer = true
  · rw [if_pos hi]
    exact loadAt_contained hx.framed 0 "this"
      (hscope.grow ((ht.grown.trans hu.grown).trans hx.grown))
  · rw [if_neg hi]
    exact .pure hx.framed hv

theorem callValue_contained (hrun : ContainedStatements M w₀ L run)
    (h : Framed M w₀ L s.state) {callee : Value} {arguments : List Value}
    (hc : s.state.Mine M w₀ (.value callee))
    (hvs : ∀ v ∈ arguments, s.state.Mine M w₀ (.value v)) :
    Contained M w₀ L (callValue run callee arguments) s fun v w => w.Mine M w₀ (.value v) := by
  refine .looking ?_
  cases callee with
  | function r =>
      exact callFunction_contained hrun h (h.closed.points _ _ hc .closure)
        (h.closed.functions r hc) hvs
  | «class» c =>
      refine (newInstance_contained h hc).bind fun i t ht hi => ?_
      cases hm : s.state.method? c "init" with
      | none =>
          exact .pure ht.framed hi
      | some f =>
          obtain ⟨hscope, hhome⟩ := h.closed.method hc hm
          refine (bound_contained ht.framed (hscope.grow ht.grown) hi).bind fun g u hu hg => ?_
          have hsu := ht.grown.trans hu.grown
          have hcall := callFunction_contained hrun hu.framed hg.1 (hg.2 ▸ hhome.grow hsu)
            fun v hv => (hvs v hv).grow hsu
          exact hcall.bind fun _ x hx _ => .pure hx.framed (hi.grow (hu.grown.trans hx.grown))
  | clock home => exact .pure h (h.closed.plain (.number s.state.now) trivial)
  | _ => exact .pure h (h.closed.plain .nil trivial)

/-! ### Units and modules -/

theorem runStatements_contained (hrun : ContainedStatements M w₀ L run)
    (h : Framed M w₀ L s.state) {home : Ref .interpreter}
    (hhome : s.state.Homed L (s.state.Mine M w₀) home) (text : UnitText) :
    Contained M w₀ L (runStatements run home text) s fun _ _ => True := by
  have hbody : Contained M w₀ L
      (text.unit.statements.forM (begin run ⟨home, s.state.globals home⟩ text)) s
        fun _ _ => True := by
    refine .forM (fun st _ t ht => ?_) h
    have hnote : Contained M w₀ L (Watched.note (.began home text st)) t
        fun _ w => w = t.state := ⟨.noting ht.framed (fun _ _ _ _ he => nomatch he), rfl⟩
    refine hnote.bind fun _ u hu _ => hrun u _ st hu.framed ?_
    have hsu := ht.grown.trans hu.grown
    exact ⟨hhome.globals.grow hsu, hhome.grow hsu⟩
  unfold Contained at hbody ⊢
  unfold runStatements
  cases hr : text.unit.statements.forM (begin run ⟨home, s.state.globals home⟩ text) s with
  | ok a t =>
      simp only [hr] at hbody ⊢
      exact hbody
  | error i t =>
      simp only [hr] at hbody ⊢
      cases i with
      | error e =>
          have hreport := Went.changed (s := t) hbody.1.framed
            (.objects (t.state.sameObjects_reportRuntime home e))
          exact ⟨hbody.1.trans hreport, trivial⟩
      | _ => exact hbody

theorem execute_contained (hrun : ContainedStatements M w₀ L run) (h : Framed M w₀ L s.state)
    {home : Ref .interpreter} (hhome : s.state.Homed L (s.state.Mine M w₀) home)
    (text : UnitText) : Contained M w₀ L (execute run home text) s fun _ _ => True := by
  unfold execute
  by_cases hok : text.unit.ok = true
  · rw [if_pos hok]
    have hprepare := Contained.modifying h (f := fun w => w.prepare home text.unit)
      (.objects (s.state.sameObjects_prepare home text.unit))
    exact hprepare.bind fun _ t ht _ =>
      runStatements_contained hrun ht.framed (hhome.grow ht.grown) text
  · rw [if_neg hok]
    have hlog := Contained.modifying h
      (f := fun w => w.log (.notExecuted text.unit.file text.unit.errorCount)) (.objects (s.state.sameObjects_log (.notExecuted text.unit.file text.unit.errorCount)))
    exact hlog.bind fun _ t ht _ => .pure ht.framed trivial

/-- A file that failed is forgotten. -/
theorem forget_contained (h : Framed M w₀ L s.state) (place : RealPath) {token : Token}
    {cause : RuntimeCause} {Q : Ref .module → World → Prop} :
    Contained M w₀ L (do
      Watched.quietly (modify fun w => w.updateLoader L fun l => l.forget place)
      Watched.quietly (Eval.fail token cause)) s Q := by
  have hforget := Contained.modifying h (f := fun w => w.updateLoader L fun l => l.forget place)
    (.updateLoader fun p m hm => .inl (World.mem_cache_forget hm).1)
  exact hforget.bind fun _ t ht _ => .fail ht.framed

theorem loadModule_contained (hrun : ContainedStatements M w₀ L run) (h : Framed M w₀ L s.state)
    (levels : Nat) (token : Token) (name : String) (place : RealPath) (source : String) :
    Contained M w₀ L (loadModule levels run L token name place source) s fun m w =>
      w.Mine M w₀ (.value (.module m)) := by
  obtain ⟨hframed, hgrown, hhome, hmine⟩ := h.enroll name place
  refine .looking ?_
  have hcompile := (s.state.enroll name L place).sameObjects_compile levels
    s.state.interpreters.next place.text source
  have hchange : Change M w₀ L _ _ := .objects hcompile
  have hset : Contained M w₀ L (Watched.quietly (set ((s.state.enroll name L place).compile levels
      s.state.interpreters.next place.text source).2)) s fun _ w =>
        w.Homed L (w.Mine M w₀) s.state.interpreters.next ∧
          w.Mine M w₀ (.value (.module s.state.modules.next)) :=
    ⟨.silently (hframed.change hchange) (hgrown.trans hchange.grown), hhome.grow hchange.grown,
      hmine.grow hchange.grown⟩
  refine hset.bind fun _ t ht ⟨hhome, hmine⟩ => ?_
  have hexecute := execute_contained hrun ht.framed hhome
    ((s.state.enroll name L place).text levels s.state.interpreters.next place.text source)
  refine hexecute.bind fun completion u hu _ => ?_
  cases completion with
  | completed => exact .pure hu.framed (hmine.grow hu.grown)
  | rejected => exact forget_contained hu.framed place
  | failed e => exact forget_contained hu.framed place

theorem importModule_contained (hrun : ContainedStatements M w₀ L run) (h : Framed M w₀ L s.state)
    {home : Ref .interpreter} (hhome : s.state.Homed L (s.state.Mine M w₀) home) (levels : Nat)
    (token : Token) :
    Contained M w₀ L (importModule levels run home token) s fun m w =>
      w.Mine M w₀ (.value (.module m)) := by
  refine .looking ?_
  cases hf : s.state.findModule home (importedModule token) with
  | nothing =>
      simp only [hf]
      exact .fail h
  | nameTooLong =>
      simp only [hf]
      exact .crash h
  | entry place e =>
      simp only [hf, hhome.loader]
      cases hm : (s.state.loaders.get L).cached? place with
      | some m =>
          have hcached : (place, m) ∈ (s.state.loaders.get L).cache :=
            Loader.mem_of_cached? hm
          have hlog := Contained.modifying h
            (f := fun w => w.log (.moduleCached (importedModule token) place.text))
            (.objects (s.state.sameObjects_log _))
          exact hlog.bind fun _ t ht _ =>
            .pure ht.framed ((h.closed.cached place m hcached).grow ht.grown)
      | none =>
          have hread : Contained M w₀ L (Watched.quietly
              (Eval.readModule token (importedModule token) e)) s fun _ _ => True := by
            refine .asking h ?_
            cases e with
            | file bytes =>
                unfold Eval.readModule
                cases hd : Text.decode? bytes with
                | some source =>
                    simp only [hd]
                    exact ⟨rfl, trivial⟩
                | none =>
                    simp only [hd]
                    exact ⟨rfl, fun _ he => nomatch he⟩
            | unreadable reason => exact ⟨rfl, fun _ he => nomatch he⟩
            | directory => exact ⟨rfl, fun _ he => nomatch he⟩
          exact hread.bind fun source t ht _ =>
            loadModule_contained hrun ht.framed levels token _ place source

end Watching

/-! ### Trees -/

/-- Evaluation at a nesting level is contained wherever it runs within the region. -/
structure LevelContained (M : Thing → Prop) (w₀ : World) (L : Ref .loader)
    (patience levels : Nat) : Prop where
  expression : ∀ s site e, Framed M w₀ L s.state → Sited M w₀ L s.state site →
    Contained M w₀ L (Watching.expression patience levels site e) s
      fun v w => w.Mine M w₀ (.value v)
  call : ∀ s callee arguments, Framed M w₀ L s.state → s.state.Mine M w₀ (.value callee) →
    (∀ v ∈ arguments, s.state.Mine M w₀ (.value v)) →
    Contained M w₀ L (Watching.call patience levels callee arguments) s
      fun v w => w.Mine M w₀ (.value v)
  statement : ContainedStatements M w₀ L (Watching.statement patience levels)

namespace LevelContained
open Watching
variable {patience levels : Nat}

theorem expression_succ (ih : LevelContained M w₀ L patience levels) (h : Framed M w₀ L s.state)
    (hs : Sited M w₀ L s.state site) (e : Expr) :
    Contained M w₀ L (Watching.expression patience (levels + 1) site e) s
      fun v w => w.Mine M w₀ (.value v) := by
  refine .marking h fun t ht _ => ?_
  have hst := hs.grow ht.grown
  have hpart : ∀ e, Contained M w₀ L (Watching.expression patience levels site e) t
      fun v w => w.Mine M w₀ (.value v) := fun e => ih.expression t site e ht.framed hst
  cases e with
  | literal l => exact .pure ht.framed (ht.framed.closed.plain _ l.value_plain)
  | grouping inner => exact hpart inner
  | name use => exact read_contained ht.framed hst use
  | this use => exact read_contained ht.framed hst use
  | assign use value =>
      refine (hpart value).bind fun v u hu hv => .marking hu.framed fun x hx _ => ?_
      have hux := hu.grown.trans hx.grown
      have hassign := assign_contained hx.framed (hst.grow hux) use (hv.grow hx.grown)
      exact hassign.bind fun _ y hy _ => .pure hy.framed (hv.grow (hx.grown.trans hy.grown))
  | unary op token operand =>
      exact (hpart operand).bind fun v u hu _ =>
        ofOperator_contained hu.framed token fun _ => UnaryOp.apply_plain
  | binary left op token right =>
      refine (hpart left).bind fun v u hu _ => ?_
      refine (ih.expression u site right hu.framed (hst.grow hu.grown)).bind fun v' x hx _ => ?_
      exact ofOperator_contained hx.framed token fun _ => BinaryOp.apply_plain
  | logical left op token right =>
      refine (hpart left).bind fun v u hu hv => ?_
      by_cases hd : op.decides v = true
      · rw [if_pos hd]
        exact .pure hu.framed hv
      · rw [if_neg hd]
        exact ih.expression u site right hu.framed (hst.grow hu.grown)
  | call callee paren arguments =>
      refine (hpart callee).bind fun f u hu hf => ?_
      have hsu := hst.grow hu.grown
      have harguments : Contained M w₀ L
          (arguments.mapM (Watching.expression patience levels site)) u
            fun vs w => ∀ v ∈ vs, w.Mine M w₀ (.value v) :=
        .mapM (fun e x hx => ih.expression x site e hx.framed (hsu.grow hx.grown)) hu.framed
      refine harguments.bind fun vs x hx hvs => ?_
      refine (checkCall_contained hx.framed f paren vs.length).bind fun _ y hy _ => ?_
      exact atCall_contained (ih.call y f vs hy.framed (hf.grow (hx.grown.trans hy.grown))
        fun v hv => (hvs v hv).grow hy.grown)
  | get object name =>
      exact (hpart object).bind fun o u hu ho => property_contained hu.framed name ho
  | set object name value =>
      refine (hpart object).bind fun o u hu ho => ?_
      refine (checkFields_contained hu.framed o name).bind fun _ x hx _ => ?_
      have hux := hu.grown.trans hx.grown
      refine (ih.expression x site value hx.framed (hst.grow hux)).bind fun v y hy hv => ?_
      refine .marking hy.framed fun z hz _ => ?_
      have hoz := ho.grow (hx.grown.trans (hy.grown.trans hz.grown))
      refine (setProperty_contained hz.framed name hoz (hv.grow hz.grown)).bind fun _ z' hz' _ => ?_
      exact .pure hz'.framed (hv.grow (hz.grown.trans hz'.grown))
  | super use method => exact superMethod_contained ht.framed hst use method
  | lambda f => exact newFunction_contained ht.framed hst.scope hst.home

theorem statement_succ (ih : LevelContained M w₀ L patience levels) (h : Framed M w₀ L s.state)
    (hs : Sited M w₀ L s.state site) (st : Stmt) :
    Contained M w₀ L (Watching.statement patience (levels + 1) site st) s fun _ _ => True := by
  refine .marking h fun t ht _ => ?_
  have hst := hs.grow ht.grown
  have hpart : ∀ e u, Went M w₀ L t u →
      Contained M w₀ L (Watching.expression patience levels site e) u
        fun v w => w.Mine M w₀ (.value v) :=
    fun e u hu => ih.expression u site e hu.framed (hst.grow hu.grown)
  have hbranch : ∀ st u, Went M w₀ L t u →
      Contained M w₀ L (Watching.statement patience levels site st) u fun _ _ => True :=
    fun st u hu => ih.statement u site st hu.framed (hst.grow hu.grown)
  have hstart := Went.refl ht.framed
  cases st with
  | expression e => exact (hpart e t hstart).bind fun _ u hu _ => .pure hu.framed trivial
  | print e =>
      refine (hpart e t hstart).bind fun v u hu _ => ?_
      exact .modifying hu.framed (f := fun w => { w with console := w.console.print (w.display v) })
        (.objects (u.state.sameObjects_console _))
  | var mutability name initial =>
      have hrest : ∀ v u, Went M w₀ L t u → u.state.Mine M w₀ (.value v) →
          Contained M w₀ L (do
            Watched.quietly (Eval.define site.scope name.lexeme v)
            mark .declared site (.stmt (.var mutability name initial))) u fun _ _ => True := by
        intro v u hu hv
        have hdefine := define_contained hu.framed name.lexeme (hst.scope.grow hu.grown) hv
        refine hdefine.bind fun _ x hx _ => ⟨.noting hx.framed fun m site' n w he => ?_, trivial⟩
        cases he
        exact hx.framed
      cases initial with
      | none => exact hrest .nil t hstart (ht.framed.closed.plain .nil trivial)
      | some e => exact (hpart e t hstart).bind hrest
  | block body =>
      refine (newScope_contained ht.framed (.block body) hst.scope).bind fun r u hu hr => ?_
      exact body_contained ⟨site.home, r⟩ ih.statement hu.framed
        ⟨hr, hst.home.grow hu.grown⟩ body
  | «if» condition thenBranch elseBranch =>
      refine (hpart condition t hstart).bind fun v u hu _ => ?_
      by_cases hv : v.truthy = true
      · rw [if_pos hv]
        exact hbranch thenBranch u hu
      · rw [if_neg hv]
        cases elseBranch with
        | none => exact .pure hu.framed trivial
        | some st => exact hbranch st u hu
  | «while» condition body increment =>
      refine loop_contained (fun u hu => ?_) (fun u hu => hbranch body u hu) (fun u hu => ?_)
        ht.framed patience
      · exact (hpart condition u hu).map fun _ _ _ _ => trivial
      · cases increment with
        | none => exact .pure hu.framed trivial
        | some e => exact (hpart e u hu).map fun _ _ _ _ => trivial
  | «break» token => exact .throw ht.framed trivial
  | «continue» token => exact .throw ht.framed trivial
  | «return» token value =>
      cases value with
      | none => exact .throw ht.framed (ht.framed.closed.plain .nil trivial)
      | some e => exact (hpart e t hstart).bind fun v u hu hv => .throw hu.framed hv
  | function f =>
      have hnew := newFunction_contained ht.framed (f := ⟨f, site.scope, site.home, false⟩)
        hst.scope hst.home
      simp only [Watched.quietly_bind]
      exact hnew.bind fun v u hu hv =>
        define_contained hu.framed f.displayName (hst.scope.grow hu.grown) hv
  | «class» name use methods =>
      cases use with
      | none =>
          have hnone : ∀ c, (none : Option (Ref .class)) = some c →
              t.state.Mine M w₀ (.value (.class c)) := fun _ he => nomatch he
          exact declareClass_contained ht.framed hst name methods hnone
      | some use =>
          have hparent : Contained M w₀ L ((some use).mapM (superclass site)) t fun p w =>
              ∀ c, p = some c → w.Mine M w₀ (.value (.class c)) :=
            (superclass_contained ht.framed hst use).map fun c u _ hc c' he =>
              Option.some.inj he ▸ hc
          exact hparent.bind fun p u hu hp =>
            declareClass_contained hu.framed (hst.grow hu.grown) name methods hp
  | importModule keyword name as =>
      have himport := importModule_contained ih.statement ht.framed hst.home (2 * levels) name
      exact himport.bind fun m u hu hm =>
        define_contained hu.framed _ (hst.scope.grow hu.grown) hm

end LevelContained

/-- Evaluation is contained in every region in which it starts, whatever the levels. -/
theorem levelContained (M : Thing → Prop) (w₀ : World) (L : Ref .loader) (patience levels : Nat) :
    LevelContained M w₀ L patience levels := by
  -- The region is the same at every level: whatever is made meanwhile belongs to it as well.
  induction levels with
  | zero =>
      constructor
      · exact fun s site e h _ => .throw h trivial
      · exact fun s callee vs h _ _ => .throw h trivial
      · exact fun s site st h _ => .throw h trivial
  | succ levels ih =>
      constructor
      · exact fun s site e h hs => ih.expression_succ h hs e
      · exact fun s callee vs h hc hvs => Watching.callValue_contained ih.statement h hc hvs
      · exact fun s site st h hs => ih.statement_succ h hs st

end
end Treewalk
