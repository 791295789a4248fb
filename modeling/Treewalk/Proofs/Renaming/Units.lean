import Treewalk.Proofs.Renaming.Read
import Treewalk.Proofs.Renaming.Resolving
import Treewalk.Proofs.Renaming.Runs
import Treewalk.Proofs.Loops.Units
import Treewalk.Proofs.Loops.Diagonal
import Treewalk.Proofs.Scopes.Constants

/-!
# Units with a local renamed

An accepted text in which a local is renamed is accepted. Its uses of names get the same hops, and
it runs alike.
-/
namespace Treewalk

open Renaming (Chart Context Mark)

/-! ### Worlds that programs reach -/

/-- Worlds in which programs do the same: the second one may have the old name renamed in scopes,
but in no globals, and in the code of functions and methods. -/
def World.Renamed (ρ : Renaming) (w w' : World) : Prop := ∃ Φ : Chart, Φ.Worlds ρ w w'

/-- What can be seen of two worlds is the same. -/
structure World.Shows (w w' : World) : Prop where
  console : w'.console = w.console
  interpreters : w'.interpreters = w.interpreters
  globals : ∀ home,
    (w'.scopes.get (w'.globals home)).values = (w.scopes.get (w.globals home)).values
  instances : w'.instances = w.instances
  modules : w'.modules = w.modules
  display : ∀ v, w'.display v = w.display v

theorem World.Renamed.shows {ρ : Renaming} {w w' : World} (h : w.Renamed ρ w') : w.Shows w' := by
  obtain ⟨Φ, h⟩ := h
  refine ⟨h.console, h.interpreters, fun home => ?_, h.instances, h.modules, h.display⟩
  rw [h.globals_eq]
  exact h.scopes.same (h.globals home).1

namespace Renaming.Chart
variable {w : World}

/-- Nothing is renamed. -/
def plain (w : World) : Chart where
  mark r renamed := r.index < w.scopes.size ∧ renamed = false
  parent r p := r.index < w.scopes.size ∧ (w.scopes.get r).parent = p

theorem plain_sees (h : ∀ r p, (w.scopes.get r).parent = some p → p.index < r.index)
    {r : Ref .scope} (hr : r.index < w.scopes.size) :
    ∃ Γ : Context, Γ.Plain ∧ (plain w).Sees Γ.marks r := by
  obtain ⟨i⟩ := r
  induction i using Nat.strongRecOn with
  | _ i ih =>
      cases hp : (w.scopes.get ⟨i⟩).parent with
      | none => exact ⟨{}, Context.plain_start, .root ⟨hr, rfl⟩ ⟨hr, hp⟩⟩
      | some p =>
          have hlt := h _ p hp
          obtain ⟨Γ, hΓ, hsees⟩ := ih p.index hlt (Nat.lt_trans hlt hr)
          exact ⟨Γ.enter false, hΓ.enter, .inside ⟨hr, rfl⟩ ⟨hr, hp⟩ hsees⟩

theorem plain_holds (ρ : Renaming) (w : World) : (plain w).Holds ρ w.scopes w.scopes where
  size := rfl
  lt h := h.1
  one h h' := h'.2.trans h.2.symm
  renamed h := nomatch h.2
  same _ := rfl
  parent h := ⟨h.1, h.2, h.2⟩

end Renaming.Chart

/-- The worlds that a session passes are like themselves. -/
theorem Session.Passes.renamed_self {steps : List SessionStep} {s : Watched World Event}
    (h : Session.Passes steps s) (hsize : 0 < s.state.interpreters.size) (ρ : Renaming) :
    s.state.Renamed ρ s.state := by
  obtain ⟨horderly, -⟩ := h.orderly
  have hsane := h.good.sane
  have hroot := h.rooted hsize
  have hsees := fun {r : Ref .scope} hr => Renaming.Chart.plain_sees (r := r) hsane.outward hr
  refine ⟨Chart.plain s.state, .mk (Chart.plain_holds ρ s.state) ?_ ?_ fun home => ?_⟩
  · refine ⟨rfl, fun r => ?_⟩
    have hlt : (s.state.functions.get r).scope.index < s.state.scopes.size := by
      rcases Nat.lt_or_ge r.index s.state.functions.size with hr | hr
      · exact (horderly.functions r hr).lt
      · rw [Arena.get_of_le _ hr]
        exact hroot.lt
    obtain ⟨Γ, hΓ, hr⟩ := hsees hlt
    exact .mk hr (FunctionDecl.renamed_self hΓ _)
  · refine ⟨rfl, fun c => ⟨rfl, rfl, fun name => ?_⟩⟩
    cases hf : (s.state.classes.get c).methods.find? name with
    | none => exact .none
    | some f =>
        obtain ⟨Γ, hΓ, hr⟩ := hsees (horderly.methods c name f hf).lt
        exact .some (.mk hr (FunctionDecl.renamed_self hΓ.enter _))
  · have hglobals : ∀ {r : Ref .scope}, r.index < s.state.scopes.size →
        (s.state.scopes.get r).parent = none →
        (Chart.plain s.state).mark r false ∧ (Chart.plain s.state).parent r none :=
      fun hr hp => ⟨⟨hr, rfl⟩, hr, hp⟩
    unfold World.globals
    rcases Nat.lt_or_ge home.index s.state.interpreters.size with hhome | hhome
    · exact hglobals (horderly.globals home hhome).lt (hsane.globals home hhome).2
    · rw [Arena.get_of_le _ hhome]
      refine hglobals hroot.lt (Option.eq_none_iff_forall_ne_some.mpr fun p hp => ?_)
      exact Nat.not_lt_zero _ (hsane.outward _ p hp)

/-! ### Accepted texts -/

theorem Renaming.states_start (ρ : Renaming) {s : Scoping} (hscopes : s.scopes = [])
    (hinitializing : s.initializing = []) (hclean : s.Clean) : ρ.States {} s s where
  scopes := hscopes ▸ .nil
  globals := rfl
  constants := rfl
  initializing := rfl
  function := rfl
  classContext := rfl
  inLoop := rfl
  around := by
    rw [hinitializing]
    exact List.nil_subset _
  admitted := fun ⟨_, hm, _⟩ => nomatch hm
  uses := rfl
  clean := hclean

/-- The kind of each use and its hops. -/
def CompiledUnit.uses (u : CompiledUnit) : List (UseForm × Nat) :=
  u.resolutions.map fun r => (r.form, r.hops)

namespace UnitText
variable {t : UnitText}

/-- The text with a local renamed is accepted, and its uses of names get the same hops. -/
theorem renamed_accepted (hok : t.unit.ok = true) {ρ : Renaming} {ss : List Stmt}
    (h : StmtsRenamed ρ {} t.unit.statements ss) :
    let u := (t.prepared t.levels (ss.map Stmt.bare)).1
    u.ok = true ∧ u.statements = ss ∧ u.constants = t.unit.constants ∧ u.uses = t.unit.uses ∧
      u.file = t.unit.file := by
  obtain ⟨s, hs⟩ := resolution_ok hok
  have hrun := hs.run
  -- What is resolved again are the statements without their hops, which is how they were read.
  have hbare : t.unit.statements.map Stmt.bare = t.parsed.statements := by
    rw [bare_statements hok, ← bareStmts_eq, bareStmts_eq_self _ (unresolved hok)]
  rw [← hbare, ← bareStmts_eq] at hrun
  obtain ⟨hstart, hrepeats⟩ :=
    (Resolve.levelRepeats ρ (t.levels / 2)).statements h _ _ hrun hs.clean
  obtain ⟨s', hr', hs'⟩ := hrepeats _ (ρ.states_start rfl rfl hstart)
  rw [bareStmts_eq] at hr'
  intro u
  have hu : u = ⟨t.file, (scan t.source).tokens.length + 1, ss, s'.resolutions.toList,
      s'.globalConstants, countErrors s'.notices.toList⟩ := by
    unfold start at hr'
    unfold u prepared CompiledUnit.resolve
    dsimp only
    rw [hr']
  rw [hu]
  refine ⟨beq_iff_eq.mpr hs'.clean, rfl, hs'.constants.trans hs.constants.symm, ?_, ?_⟩
  · unfold CompiledUnit.uses
    rw [hs.table]
    exact hs'.uses
  · exact t.unit_file.symm

end UnitText

/-! ### Runs of texts -/

/-- Two runs of a unit end alike. An error may stand at a token that is called otherwise, on the
same line, and a local that is missing may be called otherwise. -/
inductive Renaming.RunAlike (ρ : Renaming) :
    Ending Eval.Completion → Ending Eval.Completion → Prop
  | ended {completion completion' : Eval.Completion} {w w' : World} :
      Completions completion completion' → w.Renamed ρ w' →
      RunAlike ρ (.ok completion w) (.ok completion' w')
  | stopped {i i' : Interrupt} {w w' : World} : Interrupts i i' → w.Renamed ρ w' →
      RunAlike ρ (.error i w) (.error i' w')

/-- The name of a local makes no difference. A text in which a local has another name, that is used
for nothing else where the local is seen, is accepted like the first one, with the same constants
and the same hops of all uses of names. It runs alike in all states that a session passes, and what
can be seen of the worlds in which the two runs end is the same. It is taken for granted that no
property of the bare old name is set in the initial value of a local of that name, if one of the two
is renamed: there the binding that is checked is not the one that is read. -/
theorem renaming_changes_nothing {ρ : Renaming} {t : UnitText} (hok : t.unit.ok = true)
    {ss : List Stmt} (h : StmtsRenamed ρ {} t.unit.statements ss) :
    let u := (t.prepared t.levels (ss.map Stmt.bare)).1
    (u.ok = true ∧ u.statements = ss ∧ u.constants = t.unit.constants ∧ u.uses = t.unit.uses) ∧
      (∀ steps s, Session.Passes steps s → 0 < s.state.interpreters.size →
        s.state.Renamed ρ s.state) ∧
      (∀ (patience levels : Nat) (home : Ref .interpreter) (w w' : World), w.Renamed ρ w' →
        ρ.RunAlike (Eval.execute (Eval.statement patience levels) home t.unit w)
          (Eval.execute (Eval.statement patience levels) home u w')) ∧
      ∀ w w' : World, w.Renamed ρ w' → w.Shows w' := by
  intro u
  obtain ⟨hok', hstatements, hconstants, huses, hfile⟩ := t.renamed_accepted hok h
  refine ⟨⟨hok', hstatements, hconstants, huses⟩, fun _ _ hs hsize => hs.renamed_self hsize ρ,
    fun patience levels home w w' hw => ?_, fun _ _ hw => hw.shows⟩
  obtain ⟨Φ, hw⟩ := hw
  have hcount : u.errorCount = t.unit.errorCount :=
    (beq_iff_eq.mp hok').trans (beq_iff_eq.mp hok).symm
  have hss : StmtsRenamed ρ {} t.unit.statements u.statements := hstatements.symm ▸ h
  have hends := Chart.execute_outcomes (Chart.levelAgrees ρ patience levels).statement hw home hfile
    hconstants hcount hss
  revert hends
  generalize Eval.execute _ home t.unit w = r
  generalize Eval.execute _ home u w' = r'
  intro hends
  cases hends with
  | ok _ hc hw => exact .ended hc ⟨_, hw⟩
  | error _ hi hw => exact .stopped hi ⟨_, hw⟩

/-- Whether a function that sets and prints its parameter `x` is all there is. -/
def CompiledUnit.setsParameter (u : CompiledUnit) : Bool :=
  match u.statements with
  | [.function (.mk (some name) [p]
      [.expression (.assign use (.literal _)), .print (.name use')])] =>
      name.lexeme == "f" && p.lexeme == "x" && use.name.lexeme == "x" && use'.name.lexeme == "x"
  | _ => false

/-- A parameter with another name. -/
theorem renaming_changes_nothing_parameter :
    let ρ : Renaming := ⟨"x", "y", by decide, by decide, by decide⟩
    let source := "fun f(x) { x = nil; print x; }"
    let t : UnitText := { levels := 100, file := "<lox>", source := source }
    ∃ ss, StmtsRenamed ρ {} t.unit.statements ss ∧ ss ≠ t.unit.statements ∧
      let u := (t.prepared t.levels (ss.map Stmt.bare)).1
      let w := (Session.watch (Session.script source)).state
      u.ok = true ∧ ρ.RunAlike (Eval.execute (Eval.statement 9 9) ⟨0⟩ t.unit w)
        (Eval.execute (Eval.statement 9 9) ⟨0⟩ u w) := by
  intro ρ source t
  have hcheck : t.unit.setsParameter = true := by decide +kernel
  unfold CompiledUnit.setsParameter at hcheck
  split at hcheck
  · rename_i name p use value use' hstatements
    simp only [Bool.and_eq_true, beq_iff_eq] at hcheck
    obtain ⟨⟨⟨hname, hp⟩, huse⟩, huse'⟩ := hcheck
    have hfresh : ∀ (Γ : Context) {z : String}, z = "x" → Γ.Fresh ρ z := by
      rintro Γ z rfl _
      decide
    have hadmits : Context.Admits ρ {} true := fun _ => ⟨List.not_mem_nil, List.not_mem_nil⟩
    let body : Context := Context.enter {} true
    have hrenamed : StmtsRenamed ρ {} t.unit.statements
        [.function (.mk (some name) [ρ.token true p]
          [.expression (.assign (ρ.use body use) (.literal value)),
            .print (.name (ρ.use body use'))])] := by
      rw [hstatements]
      refine .cons (.function (Context.plain_start.keeps _) (.mk true hadmits ?_ ?_)) .nil
      · exact List.forall_mem_singleton.mpr (hfresh _ hp)
      · exact .cons (.expression (.assign (hfresh _ huse) (.literal value)))
          (.cons (.print (.name (hfresh _ huse'))) .nil)
    obtain ⟨⟨hok, -⟩, hself, hruns, -⟩ := renaming_changes_nothing (by decide +kernel) hrenamed
    have hw : (Session.watch (Session.script source)).state.Renamed ρ _ :=
      hself _ _ .last (by decide +kernel)
    refine ⟨_, hrenamed, fun hsame => ?_, hok, hruns 9 9 ⟨0⟩ _ _ hw⟩
    rw [hstatements] at hsame
    have htoken : ρ.token true p = p := by
      have hfunction := Stmt.function.inj (List.cons.inj hsame).1
      exact (List.cons.inj (FunctionDecl.mk.inj hfunction).2.1).1
    have hlexeme : ρ.name true p.lexeme = p.lexeme := congrArg Token.lexeme htoken
    rw [hp] at hlexeme
    exact absurd hlexeme (by decide)
  · cases hcheck

-- What is taken for granted is needed: here the property is set on the constant, but it is the local
-- of the same name that is checked, so that the text is accepted only while the two have one name.
example :
    let accepted : UnitText :=
      { levels := 100, file := "<lox>"
        source := "class A {} const x = A(); { var x = (x.f = true); print x; }" }
    let rejected : UnitText :=
      { levels := 100, file := "<lox>"
        source := "class A {} const x = A(); { var y = (x.f = true); print y; }" }
    accepted.unit.errorCount = 0 ∧ rejected.unit.errorCount = 1 := by
  decide +kernel

end Treewalk
