import Treewalk.Proofs.Parentheses.Runs
import Treewalk.Proofs.Loops.Units

/-!
# Units with parentheses

Parentheses around an operand change nothing: the program is resolved and runs as it does without
them. There are two exceptions. In parentheses the name of a constant is not seen where a property of
it is set, and a program with parentheses may nest beyond the limit.
-/
namespace Treewalk

open Resolve (Anywhere)

/-- The outcome of resolution with parentheses, where the limit does not stop it. -/
theorem CompiledUnit.resolve_grouped {P : Token → Prop} {ss ss' : List Stmt}
    (h : List.Forall₂ (Stmt.Grouped P) ss ss') (levels : Nat) (file : String) (scanned : Scanned)
    (globals constants : List String) :
    let r := resolve levels file scanned ss globals constants
    let r' := resolve levels file scanned ss' globals constants
    Notice.TooDeep r'.2 ∨
      Notice.Dropped P r.2 r'.2 ∧ r'.1.resolutions = r.1.resolutions ∧
        r'.1.constants = r.1.constants ∧
        List.Forall₂ (Stmt.Grouped Anywhere) r.1.statements r'.1.statements := by
  have hends := Resolve.Matching.mapM h
    (fun _ _ hs => (Resolve.levelMatching P (Nat.le_refl (levels / 2))).statement hs)
    { globals := globals, globalConstants := constants }
    { globals := globals, globalConstants := constants } (.mk (.refl _))
  intro r r'
  generalize hp : ss.mapM (Resolve.statement (levels / 2)) _ = p at hends
  generalize hq : ss'.mapM (Resolve.statement (levels / 2)) _ = q at hends
  cases hends with
  | ok hss hs =>
      right
      cases hs with
      | mk hs =>
          simp only [r, r', resolve, hp, hq]
          exact ⟨hs, trivial, trivial, hss⟩
  | deep _ e s =>
      left
      simp only [r', resolve, hq]
      exact ⟨_, List.mem_append_right _ (List.mem_singleton.mpr rfl)⟩

/-- A unit has as many errors as its notices say. -/
theorem CompiledUnit.resolve_errorCount (levels : Nat) (file : String) (scanned : Scanned)
    (ss : List Stmt) (globals constants : List String) :
    let r := resolve levels file scanned ss globals constants
    r.1.file = file ∧ r.1.errorCount = countErrors r.2 := by
  unfold resolve
  dsimp only
  split <;> exact ⟨rfl, rfl⟩

/-- Parentheses around expressions change neither the reports, hops and constants of a program nor
what it does, unless it nests beyond the limit with them. Only reports of properties set on a constant
may be missing, where there are parentheses around its bare name. -/
theorem parentheses_change_nothing {P : Token → Prop} {ss ss' : List Stmt}
    (h : List.Forall₂ (Stmt.Grouped P) ss ss') (t : UnitText) (levels : Nat) :
    let r := t.prepared levels ss
    let r' := t.prepared levels ss'
    Notice.TooDeep r'.2 ∨
      (Notice.Dropped P r.2 r'.2 ∧ ((∀ name, ¬P name) → r'.2 = r.2)) ∧
        r'.1.resolutions = r.1.resolutions ∧ r'.1.constants = r.1.constants ∧
        (r.1.ok = true → r'.1.ok = true ∧
          ∀ (patience n : Nat) (home : Ref .interpreter) (w w' : World), w.Grouped w' →
            Eval.UnitsAlike (Eval.execute (Eval.statement patience n) home r.1 w)
              (Eval.execute (Eval.statement patience n) home r'.1 w')) := by
  intro r r'
  obtain ⟨hfile, hcount⟩ :=
    CompiledUnit.resolve_errorCount levels t.file (scan t.source) ss t.globals t.constants
  obtain ⟨hfile', hcount'⟩ :=
    CompiledUnit.resolve_errorCount levels t.file (scan t.source) ss' t.globals t.constants
  rcases CompiledUnit.resolve_grouped h levels t.file (scan t.source) t.globals t.constants with
    hdeep | ⟨hnotices, hresolutions, hconstants, hss⟩
  · exact .inl hdeep
  refine .inr ⟨⟨hnotices, hnotices.eq_of_none⟩, hresolutions, hconstants, fun hok => ?_⟩
  have hnone : r.1.errorCount = 0 := beq_iff_eq.mp hok
  -- Parentheses can only remove reports, so a unit without any stays one.
  have hnone' : r'.1.errorCount = 0 := by
    have hle := hnotices.countErrors_le
    rw [← hcount, ← hcount'] at hle
    exact Nat.le_zero.mp (hle.trans_eq hnone)
  refine ⟨beq_iff_eq.mpr hnone', fun patience n home w w' hw => ?_⟩
  exact Eval.unitsAlike_execute (Eval.levelAlike patience (Nat.le_refl n)).statement hw home
    (hfile'.trans hfile.symm) hconstants (hnone'.trans hnone.symm) hss

/-- Parentheses around the object whose property a statement sets. -/
def Stmt.groupObject : Stmt → Stmt
  | .expression (.set object name value) => .expression (.set (.grouping object) name value)
  | s => s

theorem Stmt.grouped_groupObject (s : Stmt) : s.Grouped Anywhere s.groupObject := by
  unfold groupObject
  split
  · exact .expression (.set (fun _ => .inr trivial) (.parens (Expr.grouped_self _))
      (Expr.grouped_self _))
  · exact s.grouped_self

theorem Stmt.grouped_groupObjects (ss : List Stmt) :
    List.Forall₂ (Stmt.Grouped Anywhere) ss (ss.map Stmt.groupObject) :=
  List.forall₂_map_right_iff.mpr (List.forall₂_same.mpr fun s _ => s.grouped_groupObject)

/-- Parentheses around an object, in a program with a class and an instance of it. -/
theorem parentheses_change_nothing_object :
    let t : UnitText :=
      { levels := 100, file := "<lox>", source := "class P {} var p = P(); p.x = true;" }
    let ss := t.parsed.statements.map Stmt.groupObject
    List.Forall₂ (Stmt.Grouped Anywhere) t.parsed.statements ss ∧
      (t.prepared t.levels t.parsed.statements).1.ok = true ∧
      (t.prepared t.levels ss).1.ok = true ∧
      ∀ w, Eval.UnitsAlike
        (Eval.execute (Eval.statement 9 9) ⟨0⟩ (t.prepared t.levels t.parsed.statements).1 w)
        (Eval.execute (Eval.statement 9 9) ⟨0⟩ (t.prepared t.levels ss).1 w) := by
  intro t ss
  have hgrouped : List.Forall₂ (Stmt.Grouped Anywhere) t.parsed.statements ss :=
    Stmt.grouped_groupObjects _
  have hok : (t.prepared t.levels t.parsed.statements).1.ok = true := by decide +kernel
  rcases parentheses_change_nothing hgrouped t t.levels with ⟨place, hdeep⟩ | ⟨-, -, -, hruns⟩
  · have hnone : countErrors (t.prepared t.levels ss).2 = 0 := by decide +kernel
    exact (List.countP_eq_zero.mp hnone _ hdeep rfl).elim
  · obtain ⟨hok', hruns⟩ := hruns hok
    exact ⟨hgrouped, hok, hok', fun w => hruns 9 9 ⟨0⟩ w w (.refl w)⟩

/-- Parentheses around the name of a constant keep the report from being made that a property of it
is set; and an object that nests as deep as the limit allows nests too deep in parentheses. -/
theorem grouped_object_differs :
    (let t : UnitText :=
      { levels := 100, file := "<lox>", source := "class P {} const p = P(); p.x = true;" }
    let ss := t.parsed.statements.map Stmt.groupObject
    List.Forall₂ (Stmt.Grouped Anywhere) t.parsed.statements ss ∧
      t.unit.errorCount = 1 ∧ (t.prepared t.levels ss).1.errorCount = 0) ∧
    (let t : UnitText :=
      { levels := 30, file := "<lox>", source := "a.b.c.d.e.f.g.h.i.j.k.l.m.x = nil;" }
    let ss := t.parsed.statements.map Stmt.groupObject
    List.Forall₂ (Stmt.Grouped Anywhere) t.parsed.statements ss ∧
      t.unit.errorCount = 0 ∧ (t.prepared t.levels ss).1.errorCount = 1) := by
  refine ⟨⟨Stmt.grouped_groupObjects _, ?_, ?_⟩, Stmt.grouped_groupObjects _, ?_, ?_⟩ <;>
    decide +kernel

end Treewalk
