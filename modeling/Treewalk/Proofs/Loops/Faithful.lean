import Treewalk.Proofs.Loops.Rounds
import Treewalk.Proofs.Loops.Units

/-!
# `for` loops

A `for` loop is resolved clause by clause, and wherever a session comes to one it does what a C-style
loop does. Written by hand with the increment at the end of the body, it does the same, unless its
body has a `continue` of its own.
-/
namespace Treewalk

namespace Resolve
variable {α β : Type} (levels : Nat) (condition increment : Option Expr) (body : Stmt)

/-- Resolves the clauses of a `for` loop after its initializer, in the loop. -/
def clauses : Resolve (Option Expr × Option Expr × Stmt) := inLoop do
  let condition ← condition.mapM (expression levels)
  let body ← statement levels body
  let increment ← increment.mapM (expression levels)
  return (condition, increment, body)

/-- Resolves a `for` loop clause by clause: the initializer, if there is one, in a new scope, and the
other clauses after it in the same scope. -/
def forLoop : Option Stmt → Resolve Stmt
  | some initial => inScope [] do
      let initial ← statement (levels + 1) initial
      let r ← clauses levels condition increment body
      return Parser.forLoop (some initial) r.1 r.2.1 r.2.2
  | none => do
      let r ← clauses levels condition increment body
      return Parser.forLoop none r.1 r.2.1 r.2.2

theorem inLoop_bind (p : Resolve α) (f : α → β) :
    inLoop (p >>= fun a => pure (f a)) = inLoop p >>= fun a => pure (f a) := by
  unfold inLoop
  simp only [bind_assoc, pure_bind]

theorem inScope_bind (names : List String) (p : Resolve α) (f : α → β) :
    inScope names (p >>= fun a => pure (f a)) = inScope names p >>= fun a => pure (f a) := by
  unfold inScope
  simp only [bind_assoc, pure_bind]

/-- A condition that was left out is no name to resolve. -/
theorem statement_while_getD : statement (levels + 1)
      (.while (condition.getD (.literal (.bool true))) body increment) = (do
    let r ← clauses levels condition increment body
    return Parser.forLoop none r.1 r.2.1 r.2.2) := by
  unfold clauses
  rw [← inLoop_bind]
  conv_lhs => unfold statement
  dsimp only
  congr 1
  cases condition with
  | some c =>
      simp only [Option.getD_some, Option.mapM_some, map_eq_pure_bind, bind_assoc, pure_bind]
      rfl
  | none =>
      cases levels with
      | succ levels =>
          simp only [Option.getD_none, Option.mapM_none, expression, bind_assoc, pure_bind]
          rfl
      | zero => rfl

theorem statement_forLoop (initial : Option Stmt) :
    statement (levels + Parser.forDepth initial)
      (Parser.forLoop initial condition increment body) =
    forLoop levels condition increment body initial := by
  -- Without initializer the loop stands for itself; with one, the loop is in a block with it.
  cases initial with
  | none => exact statement_while_getD levels condition increment body
  | some initial =>
      change statement (levels + 2) (.block [initial, .while _ body increment]) = _
      conv_lhs => unfold statement
      unfold forLoop
      dsimp only
      rw [← inScope_bind]
      simp only [List.mapM_cons, List.mapM_nil, statement_while_getD, bind_assoc, pure_bind]
      rfl

end Resolve

/-- Wherever a session comes to a `for` loop, the loop is legal. -/
theorem Session.forLoop_iff_runs {steps : List SessionStep} {later earlier : List Event} {m : Moment}
    {site : Site} {initial : Option Stmt} {condition increment : Option Expr} {body : Stmt} {w : World}
    (h : (Session.watch steps).notes = later ++
      .node m site (.stmt (Parser.forLoop initial condition increment body)) w :: earlier)
    {patience levels : Nat} {r : Ending Unit} (hr : ∀ v, r ≠ .error .exhausted v) :
    Eval.statement patience (levels + Parser.forDepth initial) site
        (Parser.forLoop initial condition increment body) w = r ↔
      ∃ n ≤ patience, ForRuns patience levels site condition increment body initial n w r := by
  have hnoted := (Session.watch_kept steps).noted m site _ w
    (h ▸ List.mem_append_right _ (List.mem_cons_self ..))
  obtain ⟨hgood, frames, hat⟩ := Session.noted (fun hc : False => hc.elim) h
  obtain ⟨text, st, hhome⟩ := hgood.atHome hat.stands hat.begun
  obtain ⟨frames', hwithin⟩ := hhome.within
  have hst := UnitText.legal hhome.accepted.1 st hhome.accepted.2
  obtain ⟨l, i, hlegal⟩ := Node.Legal.within (p := ⟨[], .stmt st⟩) hst hwithin
  exact Eval.forLoop_iff_runs hlegal hnoted.named (Session.beside h) hr

/-- A `for` loop does what a C-style loop does, through name resolution and execution. Its clauses are
resolved one after the other, in one new scope if there is an initializer. Wherever a session comes
to it, executing it ends as a run of the loop ends, and each run that the limits leave room for is one
of its executions. The states that a session passes are like themselves, and in states that are alike
an accepted text runs like the one in which a `for` loop, anywhere in it, was written by hand with its
increment at the end of the body, if that has no `continue` of its own. -/
theorem for_loops_faithful (steps : List SessionStep) :
    (∀ (levels : Nat) (initial : Option Stmt) (condition increment : Option Expr) (body : Stmt),
      Resolve.statement (levels + Parser.forDepth initial)
          (Parser.forLoop initial condition increment body) =
        Resolve.forLoop levels condition increment body initial) ∧
    (∀ later earlier site initial condition increment body w,
      (Session.watch steps).notes = later ++ .node .reached site
        (.stmt (Parser.forLoop initial condition increment body)) w :: earlier →
      ∀ (patience levels : Nat) (r : Ending Unit), (∀ v, r ≠ .error .exhausted v) →
        (Eval.statement patience (levels + Parser.forDepth initial) site
            (Parser.forLoop initial condition increment body) w = r ↔
          ∃ n ≤ patience, ForRuns patience levels site condition increment body initial n w r)) ∧
    (∀ s, Session.Passes steps s → 0 < s.state.interpreters.size → s.state.Nested s.state) ∧
    ∀ (t : UnitText) (before after : List Stmt) (s s' : Stmt) (side : Side) (levels : Nat),
      t.unit.ok = true → t.parsed.statements = before ++ s :: after →
      Node.Replaced Stmt.ForByHand (.stmt s) (.stmt s') → side.Fits (t.levels / 2) (levels / 2) →
      let r := t.prepared levels (before ++ s' :: after)
      (side = .second ∧ Notice.TooDeep r.2) ∨
        r.2 = t.notices ∧ r.1.ok = true ∧
          ∀ (patience n m : Nat) (home : Ref .interpreter) (w w' : World), side.Fits n m →
            w.Nested w' → RunAlike side
              (Eval.execute (Eval.statement patience n) home t.unit w)
              (Eval.execute (Eval.statement patience m) home r.1 w') := by
  refine ⟨fun levels initial condition increment body => ?_, ?_, ?_, ?_⟩
  · exact Resolve.statement_forLoop levels condition increment body initial
  · exact fun _ _ _ _ _ _ _ _ h _ _ _ hr => Session.forLoop_iff_runs h hr
  · exact fun s hs hsize => ⟨Pairing.diagonal s.state, hs.diagonal hsize⟩
  · exact fun _ _ _ _ _ _ _ hok hs hreplaced hfits =>
      UnitText.runAlike_byHand hok hs hreplaced hfits

/-- Whether a `for` loop with all its clauses is reached, and ends normally. -/
def Event.reachesFor : Event → Bool
  | .node .reached site (.stmt (.block [initial, .while condition body (some increment)])) w =>
      match Eval.statement 9 9 site (.block [initial, .while condition body (some increment)]) w with
      | .ok _ _ => true
      | .error _ _ => false
  | _ => false

/-- Whether a `for` loop that prints something is all that is read. -/
def Parsed.isPrintingFor (p : Parsed) : Bool :=
  match p.statements with
  | [.block [_, .while _ (.print _) (some _)]] => true
  | _ => false

/-- A loop with one round. -/
theorem for_loops_faithful_once :
    let source := "for (var go = true; go; go = false) print go;"
    let t : UnitText := { levels := 100, file := "<lox>", source := source }
    (∃ later earlier site initial condition increment body w v n,
      (Session.watch (Session.script source)).notes = later ++ .node .reached site
        (.stmt (Parser.forLoop (some initial) (some condition) (some increment) body)) w :: earlier ∧
      n ≤ 9 ∧ ForRuns 9 7 site (some condition) (some increment) body (some initial) n w (.ok () v)) ∧
    ∃ initial condition increment body,
      t.parsed.statements =
        [Parser.forLoop (some initial) (some condition) (some increment) body] ∧
      let r := t.prepared 400 [byHand (some initial) (some condition) (some increment) body]
      let w := (Session.watch (Session.script source)).state
      r.1.ok = true ∧ RunAlike .first
        (Eval.execute (Eval.statement 9 9) ⟨0⟩ t.unit w)
        (Eval.execute (Eval.statement 9 36) ⟨0⟩ r.1 w) := by
  intro source t
  obtain ⟨-, hruns, hnested, hbyHand⟩ := for_loops_faithful (Session.script source)
  constructor
  · have hreached : (Session.watch (Session.script source)).notes.any Event.reachesFor = true := by
      decide +kernel
    obtain ⟨e, he, hcheck⟩ := List.any_eq_true.mp hreached
    obtain ⟨later, earlier, hnotes⟩ := List.append_of_mem he
    unfold Event.reachesFor at hcheck
    split at hcheck
    · rename_i site initial condition body increment w
      split at hcheck
      · rename_i v hrun
        obtain ⟨n, hn, h⟩ := (hruns later earlier site (some initial) (some condition)
          (some increment) body w hnotes 9 7 (.ok () v) nofun).mp hrun
        exact ⟨later, earlier, site, initial, condition, increment, body, w, v, n, hnotes, hn, h⟩
      · cases hcheck
    · cases hcheck
  · have hparsed : t.parsed.isPrintingFor = true := by decide +kernel
    unfold Parsed.isPrintingFor at hparsed
    split at hparsed
    · rename_i initial condition e increment hstatements
      have hcontinue : ¬(Stmt.print e).Raises .continue := fun ⟨_, hin⟩ => nomatch hin
      have hfor : Stmt.ForByHand
          (Parser.forLoop (some initial) (some condition) (some increment) (.print e))
          (byHand (some initial) (some condition) (some increment) (.print e)) := .intro hcontinue
      have hfits : 4 * (100 / 2) ≤ 400 / 2 := Nat.le_refl 200
      have hlike := hbyHand t [] [] _ _ .first 400 (by decide +kernel) hstatements (.here hfor)
        hfits
      rcases hlike with ⟨hside, -⟩ | ⟨-, hok, hlike⟩
      · cases hside
      · have hw := hnested _ .last (by decide +kernel)
        exact ⟨initial, condition, increment, .print e, hstatements, hok,
          hlike 9 9 36 ⟨0⟩ _ _ (Nat.le_refl 36) hw⟩
    · cases hparsed

end Treewalk
