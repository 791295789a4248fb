import Treewalk.Proofs.Loops.Resolving
import Treewalk.Proofs.Loops.Replacing
import Treewalk.Proofs.Loops.Runs

/-!
# Units with loops written out

A text in which a loop is replaced by hand is prepared with the same reports, and runs like the
original one, in worlds that differ in scopes more.
-/
namespace Treewalk

namespace Layout

/-- The layout at the beginning of a unit. -/
theorem laid_start (start : Scoping) (h : start.scopes = []) (hinit : start.initializing = []) :
    ({} : Layout).Laid start start where
  scopes := h ▸ .nil
  bottom := nofun
  within := by
    rw [hinit]
    exact List.nil_subset _
  initializing := rfl
  globals := rfl
  constants := rfl
  function := rfl
  classContext := rfl
  inLoop := rfl
  notices := rfl

theorem settled_start : ({} : Layout).Settled := ⟨trivial, fun _ => rfl⟩

end Layout

/-- The text with other statements, prepared with so many levels. -/
def UnitText.prepared (t : UnitText) (levels : Nat) (ss : List Stmt) : CompiledUnit × List Notice :=
  CompiledUnit.resolve levels t.file (scan t.source) ss t.globals t.constants

namespace UnitText
variable {t : UnitText}

/-- An accepted text has the unit that is prepared from its own statements. -/
theorem prepared_parsed (hok : t.unit.ok = true) :
    t.prepared t.levels t.parsed.statements = (t.unit, t.notices) := by
  have hnone := List.isEmpty_iff.mpr (errors_nil hok)
  unfold parsed at hnone
  unfold prepared unit notices CompiledUnit.ofSource
  simp only [hnone, if_true]
  rfl

end UnitText

/-- Statements with loops written out are prepared with the same reports, unless the limit stops
one preparation. -/
theorem CompiledUnit.resolve_writtenOut {side : Side} {levels levels' : Nat}
    (hfits : side.Fits (levels / 2) (levels' / 2)) {ss ss' : List Stmt}
    (hraw : ∀ s ∈ ss, (Node.stmt s).Unresolved) (hs : StmtsWrittenOut .none id ss ss')
    (file : String) (scanned : Scanned) (globals constants : List String) :
    let r := resolve levels file scanned ss globals constants
    let r' := resolve levels' file scanned ss' globals constants
    (match side with
      | .first => Notice.TooDeep r.2
      | .second => Notice.TooDeep r'.2) ∨ r'.2 = r.2 ∧ r.1.WrittenOut r'.1 := by
  have hends := (Layout.levelResolves side hfits).statements hraw Layout.settled_start hs
    { globals := globals, globalConstants := constants }
    { globals := globals, globalConstants := constants } (Layout.laid_start _ rfl rfl)
  have hdeep : ∀ {levels : Nat} {ss : List Stmt} {s : Scoping}, ss.mapM
      (Resolve.statement (levels / 2)) { globals := globals, globalConstants := constants } =
        .error () s → Notice.TooDeep (resolve levels file scanned ss globals constants).2 := by
    intro levels ss s hr
    unfold resolve
    simp only [hr]
    exact ⟨_, List.mem_append_right _ (List.mem_singleton.mpr rfl)⟩
  intro r r'
  generalize hp : ss.mapM (Resolve.statement (levels / 2)) _ = p at hends
  generalize hq : ss'.mapM (Resolve.statement (levels' / 2)) _ = q at hends
  cases hends with
  | @ok resolved resolved' s s' hresolved hlaid =>
      right
      have hnotices : s'.notices = s.notices := hlaid.notices
      simp only [r, r', resolve, hp, hq, hnotices]
      refine ⟨trivial, ⟨rfl, ?_, rfl, fun _ => hresolved⟩⟩
      exact hlaid.constants
  | cut hc =>
      left
      cases side with
      | first =>
          obtain ⟨s, rfl⟩ := hc
          exact hdeep hp
      | second =>
          obtain ⟨s, rfl⟩ := hc
          exact hdeep hq

/-- Worlds that differ in nothing but the identity and the nesting of scopes: everything else is the
same, or the same with loops written out. -/
def World.Nested (w w' : World) : Prop := ∃ Γ : Pairing, Γ.Worlds w w'

/-- Two units run alike, unless the limit cut one run short. -/
inductive RunAlike (side : Side) : Ending Eval.Completion → Ending Eval.Completion → Prop
  | ended {completion : Eval.Completion} {w w' : World} : w.Nested w' →
      RunAlike side (.ok completion w) (.ok completion w')
  | stopped {i i' : Interrupt} {w w' : World} : SameInterrupt (fun _ => True) i i' → w.Nested w' →
      RunAlike side (.error i w) (.error i' w')
  | short {r r' : Ending Eval.Completion} : (match side with
      | .first => r.UnitShort
      | .second => r'.UnitShort) → RunAlike side r r'

theorem Pairing.UnitOutcomes.alike {side : Side} {Γ : Pairing} {r r' : Ending Eval.Completion}
    (h : UnitOutcomes side Γ r r') : RunAlike side r r' := by
  have hshort : ∀ {r : Ending Eval.Completion}, r.Short → r.UnitShort := by
    intro r hr
    cases r with
    | ok completion w => exact hr.elim
    | error i w => exact hr
  rcases h with h | h
  · cases h with
    | ok _ hsame hw =>
        cases hsame
        exact .ended ⟨_, hw⟩
    | error _ hi hw => exact .stopped (hi.weaken fun _ _ => trivial) ⟨_, hw⟩
    | cut hc =>
        cases side with
        | first => exact .short (hshort hc)
        | second => exact .short (hshort hc)
  · exact .short h

/-- A text with a `for` loop in it replaced by hand is accepted and runs alike, unless the limit
stops its preparation or cuts a run short. -/
theorem UnitText.runAlike_byHand {t : UnitText} (hok : t.unit.ok = true)
    {before after : List Stmt} {s s' : Stmt} (hs : t.parsed.statements = before ++ s :: after)
    (hreplaced : Node.Replaced Stmt.ForByHand (.stmt s) (.stmt s')) {side : Side} {levels : Nat}
    (hfits : side.Fits (t.levels / 2) (levels / 2)) :
    let r := t.prepared levels (before ++ s' :: after)
    (side = .second ∧ Notice.TooDeep r.2) ∨
      r.2 = t.notices ∧ r.1.ok = true ∧
        ∀ (patience n m : Nat) (home : Ref .interpreter) (w w' : World), side.Fits n m →
          w.Nested w' → RunAlike side
            (Eval.execute (Eval.statement patience n) home t.unit w)
            (Eval.execute (Eval.statement patience m) home r.1 w') := by
  have hresolved := CompiledUnit.resolve_writtenOut hfits (fun s hs => (read hok hs).2.unresolved)
    (writtenOut_byHand hok hs hreplaced) t.file (scan t.source) t.globals t.constants
  have hsame : CompiledUnit.resolve t.levels t.file (scan t.source) t.parsed.statements t.globals
      t.constants = (t.unit, t.notices) := prepared_parsed hok
  have hnone := (notices_ok hok).2
  rw [hsame] at hresolved
  intro r
  rcases hresolved with hdeep | ⟨hnotices, hunit⟩
  · cases side with
    | second => exact .inl ⟨rfl, hdeep⟩
    | first =>
        obtain ⟨place, hplace⟩ := hdeep
        exact (List.countP_eq_zero.mp hnone _ hplace rfl).elim
  · refine .inr ⟨hnotices, ?_, fun patience n m home w w' hfits' ⟨Γ, hw⟩ => ?_⟩
    · have hcount : r.1.errorCount = t.unit.errorCount := hunit.errorCount
      unfold CompiledUnit.ok at hok ⊢
      rwa [hcount]
    · exact (Pairing.unitOutcomes_execute (Pairing.levelAgrees side patience hfits').statement hw
        hunit).alike

end Treewalk
