import Treewalk.Proofs.Scanning.Positions

/-!
# Scanning across line breaks

Between two pieces, the scanner remembers nothing but where it is and on which line. A line feed ends
every piece but a string, so that a text which leaves no string open is scanned in front of a line feed
as it is alone, with all its faults, and what stands behind is scanned as it is alone, that many lines
further down.
-/
namespace Treewalk

namespace Scanner
variable {s : Scanner} {c : Char} {cs : List Char}

/-- A scanner of a text with a line feed and more behind it. -/
def before (more : List Char) (s : Scanner) : Scanner := { s with rest := s.rest ++ '\n' :: more }

/-- No string has been left open. -/
def Closed (s : Scanner) : Prop := ∀ d ∈ s.faults.toList, d.error ≠ .unterminatedString

theorem run_line (fuel : Nat) (hfuel : s.rest.length ≤ fuel) :
    (s.run fuel).line = s.line + s.rest.count '\n' := by
  obtain ⟨stretches, hcovers⟩ := covers_run hfuel
  exact hcovers.line

theorem Closed.of_run {fuel : Nat} (h : (s.run fuel).Closed) : s.Closed :=
  fun d hd => h d ((Scans.faults_run fuel s).subset hd)

/-- A piece that leaves no string open. -/
theorem Closed.piece (h : (s.tick c cs).Closed) :
    ∀ f ∈ (Piece.ofChars c cs).faults, f.2 ≠ .unterminatedString := by
  intro f hf
  refine h ⟨.line (s.line + f.1 : Nat), f.2⟩ ?_
  rw [tick_faults]
  exact List.mem_append_right _ (List.mem_map.mpr ⟨f, hf, rfl⟩)

/-- Such a piece is cut off alike in front of a line feed. -/
theorem tick_before (more : List Char) (h : (s.tick c cs).Closed) :
    (s.before more).tick c (cs ++ '\n' :: more) = (s.tick c cs).before more := by
  unfold tick
  rw [Piece.ofChars_append more h.piece]
  rfl

/-- So is a whole text, and what is left then is the line feed and the rest. -/
theorem run_before (more : List Char) {fuel : Nat} (hfuel : s.rest.length ≤ fuel)
    (h : (s.run fuel).Closed) : (s.before more).finish = ((s.run fuel).before more).finish := by
  -- Only an open string looks beyond a line feed; every other piece is cut off as before.
  induction fuel generalizing s with
  | zero => rfl
  | succ fuel ih =>
      cases hrest : s.rest with
      | nil => rw [run_done _ hrest]
      | cons c cs =>
          rw [hrest, List.length_cons] at hfuel
          rw [run_succ _ hrest] at h ⊢
          have hshort : (s.tick c cs).rest.length ≤ fuel :=
            Nat.le_trans (tick_rest_length s c cs) (Nat.le_of_succ_le_succ hfuel)
          have hlonger : (s.before more).rest = c :: (cs ++ '\n' :: more) :=
            congrArg (· ++ '\n' :: more) hrest
          rw [finish_tick hlonger, tick_before more h.of_run]
          exact ih hshort h

theorem finish_rest (s : Scanner) : s.finish.rest = [] := by
  have hall : ∀ fuel (s : Scanner), s.rest.length ≤ fuel → (s.run fuel).rest = [] := by
    intro fuel
    induction fuel with
    | zero => exact fun s hfuel => List.length_eq_zero_iff.mp (Nat.le_zero.mp hfuel)
    | succ fuel ih =>
        intro s hfuel
        cases hrest : s.rest with
        | nil => rw [run_done _ hrest, hrest]
        | cons c cs =>
            rw [hrest, List.length_cons] at hfuel
            rw [run_succ _ hrest]
            exact ih _ (Nat.le_trans (tick_rest_length s c cs) (Nat.le_of_succ_le_succ hfuel))
  exact hall _ s (Nat.le_refl _)

/-- Where a text ends, the line feed leads to the next text, which is scanned as if from the start. -/
theorem finish_break (more : String) (h : s.rest = []) :
    (s.before more.toList).finish = (start more).finish.behind s.line s.tokens s.faults := by
  have hbreak : (s.before more.toList).rest = '\n' :: more.toList :=
    congrArg (· ++ '\n' :: more.toList) h
  have hnext : (s.before more.toList).tick '\n' more.toList =
      (start more).behind s.line s.tokens s.faults := by
    have hline : s.line + 1 = 1 + s.line := Nat.add_comm ..
    unfold behind before tick start
    rw [← hline]
    simp [Piece.ofChars, TokenKind.single?, TokenKind.pair?]
  rw [finish_tick hbreak, hnext, finish_behind]

end Scanner

/-- A text that leaves no string open, a line break and another text: the tokens of the first one,
then those of the second one, further down by the lines of the first one; and the same of their
errors. -/
theorem scan_line_break (first second : String)
    (h : ∀ d ∈ (scan first).faults, d.error ≠ .unterminatedString) :
    scan (first ++ "\n" ++ second) =
      ⟨(scan first).tokens ++ (scan second).tokens.map (Token.down (lineCount first)),
        (scan second).endLine + lineCount first,
        (scan first).faults ++ (scan second).faults.map (Diagnostic.down (lineCount first))⟩ := by
  have hclosed : (Scanner.start first).finish.Closed := h
  have htext : Scanner.start (first ++ "\n" ++ second) =
      (Scanner.start first).before second.toList := by
    unfold Scanner.start Scanner.before
    rw [String.toList_append, String.toList_append, List.append_assoc]
    rfl
  have hline : (Scanner.start first).finish.line = lineCount first :=
    (Scanner.run_line _ (Nat.le_refl _)).trans (Nat.add_comm ..)
  have hjoined := Scanner.run_before second.toList (Nat.le_refl _) hclosed
  rw [← htext, ← Scanner.finish, Scanner.finish_break second (Scanner.finish_rest _), hline] at hjoined
  rw [Scanner.scan_eq_finish, hjoined]
  simp only [Scanner.behind, Array.toList_append, Array.toList_map]
  rfl

/-- A text with two faults and a line feed in a string, which ends in a number and a point. -/
theorem scan_line_break_faults :
    let first := "? \"a\n\\q\" 1."
    let second := "5 ?"
    (∀ d ∈ (scan first).faults, d.error ≠ .unterminatedString) ∧
      scan (first ++ "\n" ++ second) =
        ⟨(scan first).tokens ++ (scan second).tokens.map (Token.down (lineCount first)),
          (scan second).endLine + lineCount first,
          (scan first).faults ++ (scan second).faults.map (Diagnostic.down (lineCount first))⟩ := by
  intro first second
  have hclosed : ∀ d ∈ (scan first).faults, d.error ≠ .unterminatedString := by
    decide +kernel
  exact ⟨hclosed, scan_line_break first second hclosed⟩

end Treewalk
