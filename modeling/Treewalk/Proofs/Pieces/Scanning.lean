import Treewalk.Token.Scan
import Treewalk.Proofs.Twins.Moved

/-!
# Scanning in pieces

A line feed ends every piece of a text but a string, so a text that is scanned without fault is
scanned alike in front of a line feed and another text, and the tokens of that text are as many lines
further down as the first one has.
-/
namespace Treewalk

namespace StringTail

theorem consumed_append_rest (n : Nat) (escaped : Bool) (cs : List Char) :
    (read n escaped cs).consumed ++ (read n escaped cs).rest = cs := by
  induction cs generalizing n escaped with
  | nil => cases escaped <;> rfl
  | cons c cs ih =>
      cases escaped with
      | false =>
          unfold read
          split
          · rfl
          · split <;> exact congrArg (c :: ·) (ih _ _)
      | true =>
          unfold read
          dsimp only
          split <;> exact congrArg (c :: ·) (ih _ _)

/-- What stands behind a string does not matter. -/
theorem read_append {n : Nat} {escaped : Bool} {cs : List Char} (more : List Char)
    (h : (read n escaped cs).closed = true) :
    read n escaped (cs ++ more) =
      { read n escaped cs with rest := (read n escaped cs).rest ++ more } := by
  induction cs generalizing n escaped with
  | nil => cases escaped <;> cases h
  | cons c cs ih =>
      cases escaped with
      | false =>
          unfold read at h
          rw [List.cons_append]
          unfold read
          by_cases hquote : c = '\x22'
          · simp only [hquote, if_true]
          · by_cases hslash : c = '\\'
            · simp only [hslash, if_true] at h ⊢
              rw [ih h]
              rfl
            · simp only [hquote, hslash, if_false] at h ⊢
              rw [ih h]
      | true =>
          unfold read at h
          rw [List.cons_append]
          unfold read
          dsimp only at h ⊢
          cases he : escape? c with
          | some d =>
              simp only [he] at h ⊢
              rw [ih h]
          | none =>
              simp only [he] at h ⊢
              rw [ih h]

end StringTail

namespace Piece

/-- A piece with more behind it. -/
def before (p : Piece) (more : List Char) : Piece := { p with rest := p.rest ++ more }

theorem takeWhile_append_stop {p : Char → Bool} {c : Char} (h : p c = false) (cs more : List Char) :
    (cs ++ c :: more).takeWhile p = cs.takeWhile p := by
  induction cs with
  | nil => simp [h]
  | cons d cs ih => simp only [List.cons_append, List.takeWhile_cons, ih]

theorem dropWhile_append_stop {p : Char → Bool} {c : Char} (h : p c = false) (cs more : List Char) :
    (cs ++ c :: more).dropWhile p = cs.dropWhile p ++ c :: more := by
  induction cs with
  | nil => simp [h]
  | cons d cs ih =>
      simp only [List.cons_append, List.dropWhile_cons, ih]
      split <;> rfl

/-- A number without a point that belongs to it. -/
theorem number_whole (c : Char) {cs : List Char}
    (h : ∀ d after, cs.dropWhile Char.isDigit = '.' :: d :: after → d.isDigit = false) :
    number c cs =
      { consumed := c :: cs.takeWhile Char.isDigit
        rest := cs.dropWhile Char.isDigit
        token := some (.number, some (.number
          (numberValue (c :: cs.takeWhile Char.isDigit) []))) } := by
  unfold number
  dsimp only
  split
  · next d after heq =>
      rw [if_neg (by rw [h d after heq]; decide), heq]
  · rfl

theorem number_fraction (c : Char) {cs : List Char} {d : Char} {after : List Char}
    (h : cs.dropWhile Char.isDigit = '.' :: d :: after) (hd : d.isDigit = true) :
    number c cs =
      let whole := c :: cs.takeWhile Char.isDigit
      let fraction := d :: after.takeWhile Char.isDigit
      { consumed := whole ++ '.' :: fraction
        rest := after.dropWhile Char.isDigit
        token := some (.number, some (.number (numberValue whole fraction))) } := by
  unfold number
  simp only [h, hd, if_true]

theorem number_append (c : Char) (cs more : List Char) :
    number c (cs ++ '\n' :: more) = (number c cs).before ('\n' :: more) := by
  have hdigit : Char.isDigit '\n' = false := rfl
  have hrest := dropWhile_append_stop hdigit cs more
  by_cases h : ∃ d after, cs.dropWhile Char.isDigit = '.' :: d :: after ∧ d.isDigit = true
  · obtain ⟨d, after, hcs, hd⟩ := h
    have hlonger : (cs ++ '\n' :: more).dropWhile Char.isDigit =
        '.' :: d :: (after ++ '\n' :: more) := by
      rw [hrest, hcs]
      rfl
    rw [number_fraction c hlonger hd, number_fraction c hcs hd]
    simp only [takeWhile_append_stop hdigit, dropWhile_append_stop hdigit]
    rfl
  · have hnone : ∀ d after, cs.dropWhile Char.isDigit = '.' :: d :: after → d.isDigit = false :=
      fun d after hcs => Bool.eq_false_iff.mpr fun hd => h ⟨d, after, hcs, hd⟩
    rw [number_whole c hnone, number_whole c, hrest, takeWhile_append_stop hdigit]
    · rfl
    · intro d after hcs
      rw [hrest] at hcs
      rcases hcut : cs.dropWhile Char.isDigit with _ | ⟨e, _ | ⟨e', others⟩⟩ <;> rw [hcut] at hcs
      · cases hcs
      · cases hcs
        exact hdigit
      · cases hcs
        exact hnone _ _ hcut

theorem slash_append (c : Char) (cs more : List Char) :
    slash c (cs ++ '\n' :: more) = (slash c cs).before ('\n' :: more) := by
  rcases cs with _ | ⟨d, cs⟩
  · rfl
  · by_cases hd : d = '/'
    · subst hd
      have htake := takeWhile_append_stop (p := (· ≠ '\n')) (c := '\n') (by decide) cs more
      have hdrop := dropWhile_append_stop (p := (· ≠ '\n')) (c := '\n') (by decide) cs more
      change Piece.mk (c :: '/' :: (cs ++ '\n' :: more).takeWhile (· ≠ '\n'))
        ((cs ++ '\n' :: more).dropWhile (· ≠ '\n')) none [] = _
      rw [htake, hdrop]
      rfl
    · have hplain : ∀ rest, slash c (d :: rest) =
          { consumed := [c], rest := d :: rest, token := some (.slash, none) } := by
        intro rest
        unfold slash
        split
        · next heq => exact (hd (List.cons.inj heq).1).elim
        · rfl
      rw [List.cons_append, hplain, hplain]
      rfl

theorem word_append (c : Char) (cs more : List Char) :
    word c (cs ++ '\n' :: more) = (word c cs).before ('\n' :: more) := by
  have hstop : isNamePart '\n' = false := rfl
  unfold word
  rw [takeWhile_append_stop hstop, dropWhile_append_stop hstop]
  rfl

theorem string_append {c : Char} {cs : List Char} (more : List Char)
    (h : ∀ f ∈ (string c cs).faults, f.2 ≠ .unterminatedString) :
    string c (cs ++ more) = (string c cs).before more := by
  have hclosed : (StringTail.read 0 false cs).closed = true := by
    unfold string at h
    by_cases hc : (StringTail.read 0 false cs).closed = true
    · exact hc
    · simp only [hc] at h
      exact (h _ (List.mem_append_right _ (List.mem_singleton_self _)) rfl).elim
  unfold string
  rw [StringTail.read_append more hclosed]
  simp only [hclosed, if_true]
  rfl

/-- A piece is the same in front of a line feed, unless it is a string that does not end. -/
theorem ofChars_append {c : Char} {cs : List Char} (more : List Char)
    (h : ∀ f ∈ (ofChars c cs).faults, f.2 ≠ .unterminatedString) :
    ofChars c (cs ++ '\n' :: more) = (ofChars c cs).before ('\n' :: more) := by
  unfold ofChars at h ⊢
  cases hsingle : TokenKind.single? c with
  | some kind => rfl
  | none =>
      cases hpair : TokenKind.pair? c with
      | some kinds =>
          obtain ⟨withEqual, without⟩ := kinds
          dsimp only
          rcases cs with _ | ⟨d, cs⟩
          · rfl
          · by_cases hd : d = '='
            · subst hd
              rfl
            · rw [List.cons_append]
              split
              · next heq => exact (hd (List.cons.inj heq).1).elim
              · split
                · next heq => exact (hd (List.cons.inj heq).1).elim
                · rfl
      | none =>
          simp only [hsingle, hpair] at h ⊢
          by_cases hslash : c = '/'
          · simp only [hslash, if_true]
            exact slash_append _ cs more
          · simp only [hslash, if_false] at h ⊢
            by_cases hblank : c = ' ' ∨ c = '\r' ∨ c = '\t' ∨ c = '\n'
            · simp only [hblank, if_true]
              rfl
            · simp only [hblank, if_false] at h ⊢
              by_cases hquote : c = '\x22'
              · simp only [hquote, if_true] at h ⊢
                exact string_append _ h
              · simp only [hquote, if_false] at h ⊢
                by_cases hnumber : c.isDigit = true
                · simp only [hnumber, if_true]
                  exact number_append c cs more
                · simp only [hnumber] at h ⊢
                  by_cases hname : isNameStart c = true
                  · simp only [hname, if_true]
                    exact word_append c cs more
                  · simp only [hname]
                    rfl

theorem consumed_append_rest_number (c : Char) (cs : List Char) :
    (number c cs).consumed ++ (number c cs).rest = c :: cs := by
  by_cases h : ∃ d after, cs.dropWhile Char.isDigit = '.' :: d :: after ∧ d.isDigit = true
  · obtain ⟨d, after, hcs, hd⟩ := h
    rw [number_fraction c hcs hd]
    dsimp only
    rw [List.append_assoc, List.cons_append, List.cons_append, List.cons_append,
      List.takeWhile_append_dropWhile, ← hcs, List.takeWhile_append_dropWhile]
  · rw [number_whole c fun d after hcs => Bool.eq_false_iff.mpr fun hd => h ⟨d, after, hcs, hd⟩]
    dsimp only
    rw [List.cons_append, List.takeWhile_append_dropWhile]

/-- The characters of a piece and those behind it make up the text. -/
theorem consumed_append_rest (c : Char) (cs : List Char) :
    (ofChars c cs).consumed ++ (ofChars c cs).rest = c :: cs := by
  unfold ofChars
  split
  · rfl
  · split <;> rfl
  · split
    · unfold slash
      split
      · simp only [List.cons_append, List.takeWhile_append_dropWhile]
      · rfl
    · split
      · rfl
      · split
        · unfold string
          dsimp only
          have htail := congrArg (c :: ·) (StringTail.consumed_append_rest 0 false cs)
          split <;> exact htail
        · split
          · exact consumed_append_rest_number c cs
          · split
            · unfold word
              rw [List.cons_append, List.takeWhile_append_dropWhile]
            · rfl

theorem consumed_ne_nil (c : Char) (cs : List Char) : (ofChars c cs).consumed ≠ [] := by
  unfold ofChars number slash string word
  dsimp only
  split
  · exact List.cons_ne_nil _ _
  · split <;> exact List.cons_ne_nil _ _
  · repeat' split
    all_goals exact List.cons_ne_nil _ _

theorem rest_length (c : Char) (cs : List Char) : (ofChars c cs).rest.length ≤ cs.length := by
  have hlength := congrArg List.length (consumed_append_rest c cs)
  have hpos := List.length_pos_iff.mpr (consumed_ne_nil c cs)
  rw [List.length_append, List.length_cons] at hlength
  omega

/-- The token of a piece that ends on a line. -/
def tokens (p : Piece) (line : Nat) : List Token :=
  match p.token with
  | some (kind, literal) => [⟨kind, String.ofList p.consumed, literal, line⟩]
  | none => []

theorem tokens_down (p : Piece) (line n : Nat) :
    p.tokens (line + n) = (p.tokens line).map (Token.down n) := by
  unfold tokens
  cases p.token <;> rfl

end Piece

/-- Characters, the first of which are on a line, are scanned to the end without fault. -/
inductive Scans : Nat → List Char → List Token → Nat → Prop
  | done {line : Nat} : Scans line [] [] line
  | cut {line last : Nat} {c : Char} {cs : List Char} {ts : List Token} :
      (Piece.ofChars c cs).faults = [] →
      Scans (line + (Piece.ofChars c cs).consumed.count '\n') (Piece.ofChars c cs).rest ts last →
      Scans line (c :: cs)
        ((Piece.ofChars c cs).tokens (line + (Piece.ofChars c cs).consumed.count '\n') ++ ts) last

namespace Scans
variable {line last : Nat} {cs : List Char} {ts : List Token}

theorem last_eq (h : Scans line cs ts last) : last = line + cs.count '\n' := by
  induction h with
  | done => rfl
  | @cut line last c cs ts _ _ ih =>
      rw [ih, Nat.add_assoc, ← List.count_append, Piece.consumed_append_rest]

theorem down (n : Nat) (h : Scans line cs ts last) :
    Scans (line + n) cs (ts.map (Token.down n)) (last + n) := by
  induction h with
  | done => exact .done
  | @cut line last c cs ts hfaults _ ih =>
      rw [List.map_append, ← Piece.tokens_down, Nat.add_right_comm]
      rw [Nat.add_right_comm] at ih
      exact .cut hfaults ih

/-- A line feed is scanned by itself. -/
theorem lineFeed (h : Scans (line + 1) cs ts last) : Scans line ('\n' :: cs) ts last :=
  .cut (c := '\n') rfl h

theorem lineFeeds (n : Nat) (h : Scans (line + n) cs ts last) :
    Scans line (List.replicate n '\n' ++ cs) ts last := by
  induction n generalizing line with
  | zero => exact h
  | succ n ih =>
      refine lineFeed (ih ?_)
      rw [Nat.add_assoc, Nat.add_comm 1]
      exact h

/-- Two texts with a line feed between them. -/
theorem append {middle : Nat} {more : List Char} {us : List Token} (h : Scans line cs ts middle)
    (hmore : Scans (middle + 1) more us last) :
    Scans line (cs ++ '\n' :: more) (ts ++ us) last := by
  induction h with
  | done => exact hmore.lineFeed
  | @cut line _ c cs ts hfaults _ ih =>
      have hclosed : ∀ f ∈ (Piece.ofChars c cs).faults, f.2 ≠ .unterminatedString := by
        simp [hfaults]
      have hpiece := Piece.ofChars_append more hclosed
      have hcut : Scans line (c :: (cs ++ '\n' :: more)) ((Piece.ofChars c (cs ++ '\n' :: more)).tokens
          (line + (Piece.ofChars c (cs ++ '\n' :: more)).consumed.count '\n') ++ (ts ++ us)) last := by
        refine .cut ?_ ?_ <;> rw [hpiece]
        · exact hfaults
        · exact ih hmore
      rw [hpiece, ← List.append_assoc] at hcut
      exact hcut

/-! ### The scanner -/

theorem faults_run (fuel : Nat) (s : Scanner) : s.faults.toList <+: (s.run fuel).faults.toList := by
  induction fuel generalizing s with
  | zero => exact List.prefix_rfl
  | succ fuel ih =>
      unfold Scanner.run
      split
      · exact List.prefix_rfl
      · next c cs _ =>
          refine List.IsPrefix.trans ?_ (ih _)
          unfold Scanner.tick
          dsimp only
          rw [Array.toList_appendList]
          exact List.prefix_append ..

theorem of_run {fuel : Nat} {s : Scanner} (hfuel : s.rest.length ≤ fuel)
    (h : (s.run fuel).faults.toList = []) : ∃ ts, Scans s.line s.rest ts (s.run fuel).line ∧
      (s.run fuel).tokens.toList = s.tokens.toList ++ ts := by
  induction fuel generalizing s with
  | zero =>
      rw [List.length_eq_zero_iff.mp (Nat.le_zero.mp hfuel)]
      exact ⟨[], .done, (List.append_nil _).symm⟩
  | succ fuel ih =>
      unfold Scanner.run at h ⊢
      cases hrest : s.rest with
      | nil => exact ⟨[], .done, (List.append_nil _).symm⟩
      | cons c cs =>
          simp only [hrest] at h ⊢
          rw [hrest, List.length_cons] at hfuel
          have hshort := Nat.le_trans (Piece.rest_length c cs) (Nat.le_of_succ_le_succ hfuel)
          obtain ⟨ts, hscans, htokens⟩ := ih (s := s.tick c cs) hshort h
          have hfaults : (Piece.ofChars c cs).faults = [] := by
            have hprefix := faults_run fuel (s.tick c cs)
            rw [h, List.prefix_nil] at hprefix
            unfold Scanner.tick at hprefix
            dsimp only at hprefix
            rw [Array.toList_appendList] at hprefix
            exact List.map_eq_nil_iff.mp (List.append_eq_nil_iff.mp hprefix).2
          refine ⟨_, .cut hfaults hscans, ?_⟩
          rw [htokens, ← List.append_assoc]
          congr 1
          unfold Scanner.tick Piece.tokens
          dsimp only
          cases (Piece.ofChars c cs).token with
          | none => exact (List.append_nil _).symm
          | some kind => exact Array.toList_push

theorem run {fuel : Nat} (h : Scans line cs ts last) (hfuel : cs.length ≤ fuel) {s : Scanner}
    (hrest : s.rest = cs) (hline : s.line = line) : (s.run fuel).tokens.toList = s.tokens.toList ++ ts ∧
      (s.run fuel).line = last ∧ (s.run fuel).faults.toList = s.faults.toList := by
  induction h generalizing fuel s with
  | done =>
      have hstop : s.run fuel = s := by
        cases fuel with
        | zero => rfl
        | succ fuel =>
            unfold Scanner.run
            rw [hrest]
      rw [hstop, List.append_nil]
      exact ⟨rfl, hline, rfl⟩
  | @cut line last c cs ts hfaults _ ih =>
      cases fuel with
      | zero => cases hfuel
      | succ fuel =>
          have hshort := Nat.le_trans (Piece.rest_length c cs) (Nat.le_of_succ_le_succ hfuel)
          obtain ⟨htokens, hlast, hnone⟩ := ih (s := s.tick c cs) hshort rfl
            (congrArg (· + (Piece.ofChars c cs).consumed.count '\n') hline)
          unfold Scanner.run
          simp only [hrest]
          refine ⟨?_, hlast, ?_⟩
          · rw [htokens, ← List.append_assoc]
            congr 1
            unfold Scanner.tick Piece.tokens
            dsimp only
            rw [hline]
            cases (Piece.ofChars c cs).token with
            | none => exact (List.append_nil _).symm
            | some kind => exact Array.toList_push
          · rw [hnone]
            unfold Scanner.tick
            dsimp only
            rw [hfaults, List.map_nil, Array.toList_appendList, List.append_nil]

end Scans

/-- A text is scanned without fault. -/
theorem scan_eq_iff {source : String} {ts : List Token} {last : Nat} :
    scan source = ⟨ts, last, []⟩ ↔ Scans 1 source.toList ts last := by
  constructor
  · intro h
    obtain ⟨ts', hscans, htokens⟩ := Scans.of_run (s := { rest := source.toList })
      (Nat.le_refl _) (congrArg Scanned.faults h)
    have hts : ts' = ts := htokens.symm.trans (congrArg Scanned.tokens h)
    have hlast : (scan source).endLine = last := congrArg Scanned.endLine h
    rw [← hts, ← hlast]
    exact hscans
  · intro h
    obtain ⟨htokens, hlast, hfaults⟩ := h.run (s := { rest := source.toList }) (Nat.le_refl _) rfl rfl
    unfold scan
    dsimp only
    rw [htokens, hlast, hfaults]
    rfl

/-- The number of lines of a text. -/
def lineCount (source : String) : Nat := source.toList.count '\n' + 1

/-- A text behind another one. -/
theorem scan_joined {first second : String} (h : (scan first).faults = [])
    (h' : (scan second).faults = []) : scan (first ++ "\n" ++ second) =
      ⟨(scan first).tokens ++ (scan second).tokens.map (Token.down (lineCount first)),
        (scan second).endLine + lineCount first, []⟩ := by
  have hfirst := scan_eq_iff.mp (show scan first = ⟨_, _, []⟩ by rw [← h])
  have hsecond := scan_eq_iff.mp (show scan second = ⟨_, _, []⟩ by rw [← h'])
  refine scan_eq_iff.mpr ?_
  rw [String.toList_append, String.toList_append, List.append_assoc]
  refine hfirst.append ?_
  have hline : (scan first).endLine + 1 = 1 + lineCount first := by
    rw [hfirst.last_eq]
    exact (Nat.add_assoc ..)
  rw [hline]
  exact hsecond.down _

/-- So many empty lines. -/
def lineFeeds (n : Nat) : String := String.ofList (List.replicate n '\n')

/-- A text some lines further down. -/
theorem scan_below (n : Nat) {source : String} (h : (scan source).faults = []) :
    scan (lineFeeds n ++ source) =
      ⟨(scan source).tokens.map (Token.down n), (scan source).endLine + n, []⟩ := by
  have hscans := scan_eq_iff.mp (show scan source = ⟨_, _, []⟩ by rw [← h])
  refine scan_eq_iff.mpr ?_
  rw [String.toList_append, lineFeeds, String.toList_ofList]
  exact .lineFeeds n (hscans.down n)

end Treewalk
