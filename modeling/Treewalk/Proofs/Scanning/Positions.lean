import Treewalk.Proofs.Scanning.Stretches

/-!
# Where tokens are scanned

The scanner goes from one piece to the next until no character is left. What it makes of a text does
not depend on what it has read before: behind another text, the tokens and the faults of a text are
the same, some lines further down. A token is scanned at the position at which its piece is cut off.
-/
namespace Treewalk

/-- A place some lines further down. -/
def Place.down (n : Nat) : Place → Place
  | .token lexeme m => .token lexeme (m + n)
  | .endOfInput m => .endOfInput (m + n)
  | .line m => .line (m + n)

/-- An error some lines further down. -/
def Diagnostic.down (n : Nat) (d : Diagnostic) : Diagnostic := { d with place := d.place.down n }

theorem Piece.reports_down (p : Piece) (line n : Nat) :
    p.reports (line + n) = (p.reports line).map (Diagnostic.down n) := by
  unfold reports
  rw [List.map_map]
  refine List.map_congr_left fun ⟨k, error⟩ _ => ?_
  have hline : ((line + n + k : Nat) : Int) = ((line + k : Nat) : Int) + n := by omega
  exact congrArg (fun m => Diagnostic.mk (.line m) error) hline

namespace Scanner
variable {s : Scanner} {c : Char} {cs : List Char}

/-! ### From one piece to the next -/

theorem run_done (fuel : Nat) (h : s.rest = []) : s.run fuel = s := by
  cases fuel with
  | zero => rfl
  | succ fuel =>
      unfold run
      rw [h]

theorem run_succ (fuel : Nat) (h : s.rest = c :: cs) : s.run (fuel + 1) = (s.tick c cs).run fuel := by
  rw [run, h]

theorem tick_rest_length (s : Scanner) (c : Char) (cs : List Char) :
    (s.tick c cs).rest.length ≤ cs.length := Piece.rest_length c cs

/-- Fuel for every character is enough. -/
theorem run_fuel {fuel fuel' : Nat} (h : s.rest.length ≤ fuel) (h' : s.rest.length ≤ fuel') :
    s.run fuel = s.run fuel' := by
  induction fuel generalizing s fuel' with
  | zero =>
      have hrest := List.length_eq_zero_iff.mp (Nat.le_zero.mp h)
      rw [run_done _ hrest, run_done _ hrest]
  | succ fuel ih =>
      cases hrest : s.rest with
      | nil => rw [run_done _ hrest, run_done _ hrest]
      | cons c cs =>
          rw [hrest, List.length_cons] at h h'
          have hshort := tick_rest_length s c cs
          cases fuel' with
          | zero => cases h'
          | succ fuel' =>
              rw [run_succ _ hrest, run_succ _ hrest]
              exact ih (by omega) (by omega)

/-- Where the scanner ends. -/
def finish (s : Scanner) : Scanner := s.run s.rest.length

theorem finish_done (h : s.rest = []) : s.finish = s := run_done _ h

theorem finish_tick (h : s.rest = c :: cs) : s.finish = (s.tick c cs).finish := by
  unfold finish
  rw [h, List.length_cons, run_succ _ h]
  exact run_fuel (tick_rest_length s c cs) (Nat.le_refl _)

/-- The scanner in front of a text. -/
def start (source : String) : Scanner := { rest := source.toList }

theorem scan_eq_finish (source : String) : scan source =
    ⟨(start source).finish.tokens.toList, (start source).finish.line,
      (start source).finish.faults.toList⟩ := rfl

/-! ### Behind another text -/

/-- A scanner behind a text of so many lines with such tokens and faults. -/
def behind (n : Nat) (tokens : Array Token) (faults : Array Diagnostic) (s : Scanner) : Scanner where
  rest := s.rest
  line := s.line + n
  tokens := tokens ++ s.tokens.map (Token.down n)
  faults := faults ++ s.faults.map (Diagnostic.down n)

variable (n : Nat) (tokens : Array Token) (faults : Array Diagnostic)

theorem tick_behind (s : Scanner) (c : Char) (cs : List Char) :
    (s.behind n tokens faults).tick c cs = (s.tick c cs).behind n tokens faults := by
  have hline : ((s.behind n tokens faults).tick c cs).line =
      ((s.tick c cs).behind n tokens faults).line := Nat.add_right_comm ..
  have htokens : ((s.behind n tokens faults).tick c cs).tokens =
      ((s.tick c cs).behind n tokens faults).tokens := by
    refine Array.ext' ?_
    rw [tick_tokens, hline, show ((s.tick c cs).behind n tokens faults).line =
      (s.tick c cs).line + n from rfl, Piece.tokens_down]
    simp only [behind, Array.toList_append, Array.toList_map, tick_tokens, List.map_append,
      List.append_assoc]
  have hfaults : ((s.behind n tokens faults).tick c cs).faults =
      ((s.tick c cs).behind n tokens faults).faults := by
    refine Array.ext' ?_
    rw [tick_faults, show (s.behind n tokens faults).line = s.line + n from rfl, Piece.reports_down]
    simp only [behind, Array.toList_append, Array.toList_map, tick_faults, List.map_append,
      List.append_assoc]
  exact congrArg₂ (fun f x => f x) (congrArg₂ (Scanner.mk _) hline htokens) hfaults

theorem run_behind (fuel : Nat) (s : Scanner) :
    (s.behind n tokens faults).run fuel = (s.run fuel).behind n tokens faults := by
  induction fuel generalizing s with
  | zero => rfl
  | succ fuel ih =>
      cases hrest : s.rest with
      | nil =>
          have hrest' : (s.behind n tokens faults).rest = [] := hrest
          rw [run_done _ hrest, run_done _ hrest']
      | cons c cs =>
          have hrest' : (s.behind n tokens faults).rest = c :: cs := hrest
          rw [run_succ _ hrest, run_succ _ hrest', tick_behind, ih]

theorem finish_behind (s : Scanner) :
    (s.behind n tokens faults).finish = s.finish.behind n tokens faults :=
  run_behind n tokens faults s.rest.length s

/-! ### Positions -/

theorem run_tokens_prefix (fuel : Nat) (s : Scanner) :
    s.tokens.toList <+: (s.run fuel).tokens.toList := by
  induction fuel generalizing s with
  | zero => exact List.prefix_rfl
  | succ fuel ih =>
      cases hrest : s.rest with
      | nil => simp only [run_done _ hrest, List.prefix_rfl]
      | cons c cs =>
          rw [run_succ _ hrest]
          refine List.IsPrefix.trans ?_ (ih _)
          rw [tick_tokens]
          exact List.prefix_append ..

theorem run_rest_suffix (fuel : Nat) (s : Scanner) : (s.run fuel).rest <:+ s.rest := by
  induction fuel generalizing s with
  | zero => exact List.suffix_rfl
  | succ fuel ih =>
      cases hrest : s.rest with
      | nil => simp only [run_done _ hrest, hrest, List.suffix_rfl]
      | cons c cs =>
          rw [run_succ _ hrest]
          exact (ih _).trans ⟨_, Piece.consumed_append_rest c cs⟩

theorem run_add (first later : Nat) (s : Scanner) : s.run (first + later) = (s.run first).run later := by
  induction first generalizing s with
  | zero => rw [Nat.zero_add, run]
  | succ first ih =>
      cases hrest : s.rest with
      | nil => rw [run_done _ hrest, run_done _ hrest, run_done _ hrest]
      | cons c cs => rw [Nat.add_right_comm, run_succ _ hrest, run_succ _ hrest, ih]

/-- A token comes from one of the pieces. -/
theorem mem_run_tokens {fuel : Nat} {s : Scanner} {t : Token} (h : t ∈ (s.run fuel).tokens.toList) :
    t ∈ s.tokens.toList ∨ ∃ pieces c cs, (s.run pieces).rest = c :: cs ∧
      ((s.run pieces).tick c cs).tokens = (s.run pieces).tokens.push t := by
  induction fuel generalizing s with
  | zero => exact .inl h
  | succ fuel ih =>
      cases hrest : s.rest with
      | nil =>
          rw [run_done _ hrest] at h
          exact .inl h
      | cons c cs =>
          rw [run_succ _ hrest] at h
          rcases ih h with hfirst | ⟨pieces, d, ds, hcut, hpush⟩
          · rw [tick_tokens, List.mem_append] at hfirst
            refine hfirst.imp_right fun hpiece => ⟨0, c, cs, hrest, Array.ext' ?_⟩
            rw [run, tick_tokens, Array.toList_push]
            unfold Piece.tokens at hpiece ⊢
            split at hpiece
            · rw [List.mem_singleton.mp hpiece]
            · cases hpiece
          · rw [← run_succ _ hrest] at hcut hpush
            exact .inr ⟨pieces + 1, d, ds, hcut, hpush⟩

end Scanner

/-- At a position of a text, the scanner cuts off a piece with a token. -/
def TokenAt (source : String) (position : Nat) (t : Token) : Prop :=
  ∃ (pieces : Nat) (c : Char) (cs : List Char),
    let s := (Scanner.start source).run pieces
    s.rest = c :: cs ∧ source.toList.drop position = c :: cs ∧
      (s.tick c cs).tokens = s.tokens.push t

/-- The tokens of a text are those at its positions. -/
theorem mem_scan_iff {source : String} {t : Token} :
    t ∈ (scan source).tokens ↔ ∃ position, TokenAt source position t := by
  constructor
  · intro h
    rcases Scanner.mem_run_tokens (s := Scanner.start source) h with hnone | ⟨pieces, c, cs, hcut, hpush⟩
    · exact (List.not_mem_nil hnone).elim
    · obtain ⟨before, hbefore⟩ := Scanner.run_rest_suffix pieces (Scanner.start source)
      refine ⟨before.length, pieces, c, cs, hcut, ?_, hpush⟩
      rw [← hcut, show source.toList = before ++ _ from hbefore.symm, List.drop_left]
  · rintro ⟨position, pieces, c, cs, hcut, -, hpush⟩
    have hlast : t ∈ ((Scanner.start source).run (pieces + 1)).tokens.toList := by
      rw [Scanner.run_add, Scanner.run_succ _ hcut, Scanner.run, hpush, Array.toList_push]
      exact List.mem_append_right _ (List.mem_singleton_self t)
    have hall := (Scanner.run_tokens_prefix (Scanner.start source).rest.length
      ((Scanner.start source).run (pieces + 1))).subset hlast
    -- With more fuel than the text needs nothing more is scanned.
    have henough : (Scanner.start source).run (pieces + 1 + (Scanner.start source).rest.length) =
        (Scanner.start source).finish := Scanner.run_fuel (Nat.le_add_left ..) (Nat.le_refl _)
    rw [← Scanner.run_add, henough] at hall
    exact hall

end Treewalk
