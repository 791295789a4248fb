import Treewalk.Proofs.Grammar.Soundness
import Treewalk.Proofs.Scopes.Resolution

/-!
# Resolved units

A unit without errors consists of resolved statements. The statements of a unit see the global
constants of the interpreter and those that the statements before them declare; all of them are
constants after the unit.
-/
namespace Treewalk

/-- A source text as it is handed over to be prepared. -/
structure UnitText where
  levels : Nat
  file : String
  source : String
  globals : List String := []
  constants : List String := []

namespace UnitText

/-- The unit that is prepared from a text. -/
def unit (t : UnitText) : CompiledUnit :=
  (CompiledUnit.ofSource t.levels t.file t.source t.globals t.constants).1

/-- The statements as they are read. -/
def parsed (t : UnitText) : Parsed :=
  parseTokens t.levels (scan t.source).tokens (scan t.source).endLine

theorem unit_file (t : UnitText) : t.unit.file = t.file := by
  unfold unit CompiledUnit.ofSource
  dsimp only
  split
  · unfold CompiledUnit.resolve
    dsimp only
    split <;> rfl
  · rfl

/-- The state in which the resolution of the unit begins. -/
def start (t : UnitText) : Scoping := { globals := t.globals, globalConstants := t.constants }

theorem start_agrees (t : UnitText) : t.start.Agrees t.constants [] := ⟨.nil, fun _ => Iff.rfl⟩

/-- Name resolution of the unit, watched. -/
def resolution (t : UnitText) : EStateM.Result Unit (Watched Scoping Visit) (List Stmt) :=
  Visiting.statements (t.levels / 2) t.parsed.statements
    ⟨{ globals := t.globals, globalConstants := t.constants }, []⟩

/-- What name resolution visits in the unit. -/
def visits (t : UnitText) : List Visit :=
  match t.resolution with
  | .ok _ s => s.notes
  | .error _ s => s.notes

/-- An accepted unit was scanned and read without errors. -/
theorem errors_nil {t : UnitText} (h : t.unit.ok = true) :
    (scan t.source).faults ++ t.parsed.reports = [] := by
  unfold CompiledUnit.ok unit CompiledUnit.ofSource at h
  simp only [beq_iff_eq] at h
  by_contra hsome
  unfold parsed at hsome
  simp only [List.isEmpty_iff, hsome, if_false] at h
  exact hsome (List.length_eq_zero_iff.mp h)

theorem reports_nil {t : UnitText} (h : t.unit.ok = true) : t.parsed.reports = [] :=
  (List.append_eq_nil_iff.mp (errors_nil h)).2

/-- Name resolution, watched or not, makes the statements of the unit of what was read, and reports
no errors. -/
structure Resolves (t : UnitText) (s : Watched Scoping Visit) : Prop where
  watched : t.resolution = .ok t.unit.statements s
  run : t.parsed.statements.mapM (Resolve.statement (t.levels / 2)) t.start =
    .ok t.unit.statements s.state
  clean : s.state.Clean
  constants : t.unit.constants = s.state.globalConstants
  table : t.unit.resolutions = s.state.resolutions.toList

/-- And it was resolved without errors. -/
theorem resolution_ok {t : UnitText} (h : t.unit.ok = true) : ∃ s, t.Resolves s := by
  have hplain : t.parsed.statements.mapM (Resolve.statement (t.levels / 2)) t.start =
      Watched.forget t.resolution :=
    (Visiting.statements_erases (t.levels / 2) t.parsed.statements ⟨t.start, []⟩).symm
  have hunit : t.unit = (CompiledUnit.resolve t.levels t.file (scan t.source) t.parsed.statements
      t.globals t.constants).1 := by
    have hnone := List.isEmpty_iff.mpr (errors_nil h)
    unfold parsed at hnone ⊢
    unfold unit CompiledUnit.ofSource
    simp only [hnone, if_true]
  have hok := h
  unfold CompiledUnit.ok at hok
  rw [hunit] at hok
  unfold CompiledUnit.resolve at hunit hok
  cases hr : t.resolution with
  | ok ss s =>
      rw [hr] at hplain
      unfold start at hplain
      simp only [hplain, Watched.forget, beq_iff_eq] at hunit hok
      refine ⟨s, ?_, ?_, hok, ?_, ?_⟩
      · rw [hunit, hr]
      · rw [hunit]
        exact hplain
      · rw [hunit]
      · rw [hunit]
  | error e s =>
      rw [hr] at hplain
      unfold start at hplain
      simp only [hplain, Watched.forget, beq_iff_eq, countErrors_append, countErrors_error] at hok
      omega

variable {t : UnitText}

theorem parsed_derives (h : t.parsed.reports = []) :
    Derives (.declarations t.parsed.statements) (scan t.source).tokens := by
  have hparsed : parseTokens t.levels (scan t.source).tokens (scan t.source).endLine =
      ⟨t.parsed.statements, []⟩ := by
    rw [← h]
    rfl
  exact derives_of_parseTokens hparsed

/-- Every tree of a unit that is read without errors is as it is read from the tokens of its text. -/
theorem parsed_allRead (h : t.parsed.reports = []) :
    ∀ st ∈ t.parsed.statements, (Node.stmt st).AllRead (scan t.source).tokens :=
  (parsed_derives h).allRead fun _ ht => ht

theorem parsed_unresolved (h : t.parsed.reports = []) :
    ∀ st ∈ t.parsed.statements, (Node.stmt st).Unresolved :=
  fun st hst => (parsed_allRead h st hst).unresolved (scan_worded t.source)

theorem unresolved (h : t.unit.ok = true) :
    ∀ st ∈ t.parsed.statements, (Node.stmt st).Unresolved := parsed_unresolved (reports_nil h)

theorem resolved (h : t.unit.ok = true) :
    ∃ s, t.resolution = .ok t.unit.statements s ∧ s.state.Clean ∧
      t.unit.constants = s.state.globalConstants ∧
      Visiting.Declares (declarations t.unit.statements)
        ⟨{ globals := t.globals, globalConstants := t.constants }, []⟩ s ∧
      ∀ before st after, t.unit.statements = before ++ st :: after →
        Everywhere (Placed (globally t.constants (declarations before) []) s.notes [] [])
          ⟨[], .stmt st⟩ := by
  obtain ⟨s, hs⟩ := resolution_ok h
  obtain ⟨hdeclares, hplaces⟩ :=
    Visiting.LevelPlaces.statements_places (Visiting.places _) (unresolved h) hs.watched
  exact ⟨s, hs.watched, hs.clean, hs.constants, hdeclares, fun before st after he =>
    hplaces before st after he hs.clean trivial t.start_agrees⟩

/-- Every position in an accepted unit is resolved. -/
theorem placed (h : t.unit.ok = true) {before after : List Stmt} {st : Stmt}
    (he : t.unit.statements = before ++ st :: after) :
    Everywhere (Placed (t.constants ++ constantNames (declarations before)) t.visits [] [])
      ⟨[], .stmt st⟩ := by
  obtain ⟨s, hr, -, -, -, hplaces⟩ := resolved h
  have hvisits : t.visits = s.notes := by
    unfold visits
    rw [hr]
  rw [hvisits]
  exact hplaces before st after he

/-- The constants after an accepted unit are those before it and those that it declares. -/
theorem mem_constants (h : t.unit.ok = true) (x : String) :
    x ∈ t.unit.constants ↔
      x ∈ t.constants ∨ (x, .constant) ∈ declarations t.unit.statements := by
  obtain ⟨s, -, hclean, hconstants, hdeclares, -⟩ := resolved h
  have hsettled : Settled [] := trivial
  have hend := hdeclares.agrees hclean hsettled t.start_agrees
  rw [hconstants, hend.constants]
  change x ∈ t.constants ++ constantNames _ ↔ _
  rw [List.mem_append, mem_constantNames]

end UnitText
end Treewalk
