import Treewalk.Proofs.Pieces.Running

/-!
# Sessions in pieces

Two texts that are run one after the other, in any state of a session, do what one text does in which
the second one stands behind the first: with the same output and the same end, but for the lines of
what stands in the second text.
-/
namespace Treewalk

/-- In every state of every session: if a text is accepted, and another one after it was run, then
both are accepted in one text, with a line feed between them, when the first one completes. The single
run ends like the second of two runs, in the same world; an error stands as many lines further down as
the first text has, or where it stood, and exactly there if the second text is moved down beforehand.
If the first text does not complete and both are accepted in one text, the single run is that of the
first. -/
theorem run_in_pieces (steps : List SessionStep) (home : Ref .interpreter)
    (file first second : String) (hhome : home.index < (Session.play steps).interpreters.size) :
    let w := Session.play steps
    let both := first ++ "\n" ++ second
    let unit := (w.compile nestingLimit home file both).1
    let once := w.run home file both
    let begun := w.run home file first
    let next := begun.2.run home file second
    let below := begun.2.run home file (lineFeeds (lineCount first) ++ second)
    w.Accepts home file first → begun.2.Accepts home file second →
      (begun.1.completed = true →
        w.Accepts home file both ∧
        begun.2.Accepts home file (lineFeeds (lineCount first) ++ second) ∧
        once.1 = below.1.elsewhere unit 0 ∧
        (∃ err, once.2 = below.2.withErrors err) ∧
        (∃ n, (n = 0 ∨ n = lineCount first) ∧ once.1 = next.1.elsewhere unit n) ∧
        next.2.Moved (lineCount first) once.2) ∧
      (begun.1.completed = false → w.Accepts home file both →
        once.1 = begun.1.elsewhere unit 0 ∧
        ∃ constants err, once.2 = (begun.2.withConstants home constants).withErrors err) := by
  have hgood : Good False 0 (Session.watch steps) := Session.watch_good fun hc => hc.elim
  rw [← Session.watch_state] at hhome ⊢
  generalize Session.watch steps = s at hhome hgood
  intro w both unit once begun next below hfirst hsecond
  constructor
  · intro hcompleted
    have hjoined := hgood.joined hhome hfirst hcompleted hsecond
    have hboth := World.accepts_of_makes hjoined
    have hmoved := hsecond.below (lineCount first)
    have hbelow := World.accepts_of_makes hmoved
    -- One text is a list of statements: those of the first, and those of the second moved down.
    have hlower : (s.state.text nestingLimit home file (first ++ "\n" ++ second)).unit.statements =
        (s.state.text nestingLimit home file first).unit.statements ++
          ((s.state.run home file first).2.text nestingLimit home file
            (lineFeeds (lineCount first) ++ second)).unit.statements.map (Stmt.down 0) := by
      rw [hjoined.statements, hmoved.statements, ← downStmts_eq 0, downStmts_zero]
    -- Once against the second text moved down, where no line differs, and once as it was written.
    obtain ⟨m, hm, hsame, hexact⟩ := hgood.run_rest hhome hfirst hcompleted hboth hbelow hlower
      (hjoined.constants.trans hmoved.constants.symm)
    obtain ⟨n, hn, hended, htwins⟩ :=
      hgood.run_rest hhome hfirst hcompleted hboth hsecond hjoined.statements hjoined.constants
    rw [show m = 0 from hm.elim id id] at hsame
    exact ⟨hboth, hbelow, hsame, hexact.exceptLines_eq, ⟨n, hn, hended⟩, htwins.exceptLines_moved⟩
  · intro hnot hboth
    obtain ⟨others, hstatements⟩ := UnitText.followed_begins hfirst.unit hsecond.unit rfl hboth.unit
    obtain ⟨hended, htwins⟩ := World.run_interrupted hhome hfirst hnot hboth hstatements
    exact ⟨hended, htwins.exceptConstants_eq⟩

/-- An error in the second text, which is reported so many lines further down; and an error in the
first text, behind which nothing is run. -/
theorem run_in_pieces_error :
    let w := Session.play [.addLoader [], .addInterpreter "__main__" ⟨0⟩]
    let run := fun (w : World) source => w.run ⟨0⟩ "<lox>" source
    let line := fun (o : Outcome) => o.error?.map fun e => e.token.line
    (∃ u n, (n = 0 ∨ n = 1) ∧ (run w "var x = true;\nprint x; x();").1 =
      (run (run w "var x = true;").2 "print x; x();").1.elsewhere u n) ∧
    line (run (run w "var x = true;").2 "print x; x();").1 = some 1 ∧
    line (run w "var x = true;\nprint x; x();").1 = some 2 ∧
    (∃ u, (run w "x();\nvar x = true;").1 = (run w "x();").1.elsewhere u 0) ∧
    line (run w "x();").1 = some 1 := by
  intro w run line
  have hhome : (0 : Nat) < w.interpreters.size := by decide +kernel
  obtain ⟨hcompleted, -⟩ := run_in_pieces [.addLoader [], .addInterpreter "__main__" ⟨0⟩] ⟨0⟩ "<lox>"
    "var x = true;" "print x; x();" hhome (by decide +kernel) (by decide +kernel)
  obtain ⟨-, hfailed⟩ := run_in_pieces [.addLoader [], .addInterpreter "__main__" ⟨0⟩] ⟨0⟩ "<lox>"
    "x();" "var x = true;" hhome (by decide +kernel) (by decide +kernel)
  obtain ⟨-, -, -, -, ⟨n, hn, hended⟩, -⟩ := hcompleted (by decide +kernel)
  obtain ⟨hfirst, -⟩ := hfailed (by decide +kernel) (by decide +kernel)
  exact ⟨⟨_, n, hn, hended⟩, by decide +kernel, by decide +kernel, ⟨_, hfirst⟩, by decide +kernel⟩

/-- The line of an error in the first text is the same, though a call in the second one leads to it. -/
theorem error_line_kept :
    let w := Session.play [.addLoader [], .addInterpreter "__main__" ⟨0⟩]
    let first := "fun f() \x7b nil(); \x7d"
    let second := "f();"
    let begun := w.run ⟨0⟩ "<lox>" first
    let line := fun (o : Outcome) => o.error?.map fun e => e.token.line
    w.Accepts ⟨0⟩ "<lox>" first ∧ begun.2.Accepts ⟨0⟩ "<lox>" second ∧ begun.1.completed = true ∧
    line (begun.2.run ⟨0⟩ "<lox>" second).1 = some 1 ∧
    ¬line (w.run ⟨0⟩ "<lox>" (first ++ "\n" ++ second)).1 = some (1 + lineCount first) := by
  decide +kernel

end Treewalk
