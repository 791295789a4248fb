import Mathlib.Data.List.DropRight
import Treewalk.Proofs.Pieces.Scanning

/-!
# What is scanned

Nothing of a text is lost: cut into tokens and what stands between them, it is blanks, comments, and
what the scanner reports. The line of a token is the one on which its last character stands.
-/
namespace Treewalk

namespace Diagnostic

/-- Is something of the text left out for this error? An escape that names nothing stands inside a
string. -/
def loses (d : Diagnostic) : Bool :=
  match d.error with
  | .unexpectedCharacter _ | .unterminatedString => true
  | _ => false

end Diagnostic

/-- A stretch of a source text: a token, or what can stand between two of them. -/
inductive Stretch
  | token (t : Token)
  | blank (c : Char)
  | comment (text : List Char)
  | stray (c : Char)
  | unclosed (text : List Char)

namespace Stretch

/-- The characters of a stretch. -/
def chars : Stretch → List Char
  | token t => t.lexeme.toList
  | blank c | stray c => [c]
  | comment text => '/' :: '/' :: text
  | unclosed text => '\x22' :: text

/-- The token of a stretch. -/
def token? : Stretch → Option Token
  | token t => some t
  | _ => none

/-- What is reported of a stretch that ends on a line. -/
def report? (line : Nat) : Stretch → Option Diagnostic
  | stray c => some ⟨.line line, .unexpectedCharacter c⟩
  | unclosed _ => some ⟨.line line, .unterminatedString⟩
  | _ => none

/-- What is reported of stretches that begin on a line, in their order. -/
def reports : Nat → List Stretch → List Diagnostic
  | _, [] => []
  | line, s :: more =>
      let ending := line + s.chars.count '\n'
      (s.report? ending).toList ++ reports ending more

/-- The text of stretches. -/
def text (stretches : List Stretch) : List Char := stretches.flatMap chars

/-- No token, blank, comment or string begins with the character. -/
structure Unexpected (c : Char) : Prop where
  single : TokenKind.single? c = none
  pair : TokenKind.pair? c = none
  slash : c ≠ '/'
  blank : c ∉ [' ', '\r', '\t', '\n']
  quote : c ≠ '\x22'
  digit : c.isDigit = false
  name : isNameStart c = false

/-- Behind these characters of a string a backslash escapes the next one: they end in an odd number
of backslashes. -/
def Escapes (before : List Char) : Prop := (before.rtakeWhile (· = '\\')).length % 2 = 1

/-- What is true of a stretch that ends on a line and has characters behind it. -/
def Stands (line : Nat) (behind : List Char) : Stretch → Prop
  | token t => t.lexeme ≠ "" ∧ t.line = line
  | blank c => c ∈ [' ', '\r', '\t', '\n']
  | comment text => '\n' ∉ text ∧ (behind = [] ∨ ∃ more, behind = '\n' :: more)
  | stray c => Unexpected c
  | unclosed text =>
      behind = [] ∧ ∀ before after, text = before ++ '\x22' :: after → Escapes before

end Stretch

namespace Stretch.Escapes
variable {before : List Char}

theorem slash : Escapes (before ++ ['\\']) ↔ ¬ Escapes before := by
  unfold Escapes
  rw [List.rtakeWhile_concat_pos _ _ _ (by decide), List.length_append, List.length_singleton]
  omega

theorem other {c : Char} (h : c ≠ '\\') : ¬ Escapes (before ++ [c]) := by
  unfold Escapes
  rw [List.rtakeWhile_concat_neg _ _ _ (by simpa using h)]
  exact Nat.zero_ne_one

theorem nil : ¬ Escapes [] := Nat.zero_ne_one

end Stretch.Escapes

/-- A string that is not closed takes the rest of the text, and each quote in it is escaped. -/
theorem StringTail.read_open {n : Nat} {escaped : Bool} {cs earlier : List Char}
    (hescaped : escaped = true ↔ Stretch.Escapes earlier) (h : (read n escaped cs).closed = false) :
    (read n escaped cs).rest = [] ∧
      ∀ before after, cs = before ++ '\x22' :: after → Stretch.Escapes (earlier ++ before) := by
  induction cs generalizing n escaped earlier with
  | nil =>
      refine ⟨by cases escaped <;> rfl, fun before after hcs => ?_⟩
      exact absurd hcs.symm (List.append_ne_nil_of_right_ne_nil _ (List.cons_ne_nil _ _))
  | cons c cs ih =>
      -- What is left to show of a quote further behind, once the state after `c` is known.
      have hlater : ∀ {m next}, (next = true ↔ Stretch.Escapes (earlier ++ [c])) →
          (read m next cs).closed = false → (c = '\x22' → Stretch.Escapes earlier) →
          (read m next cs).rest = [] ∧ ∀ before after, c :: cs = before ++ '\x22' :: after →
            Stretch.Escapes (earlier ++ before) := by
        intro m next hnext hopen hquote
        obtain ⟨hrest, hinside⟩ := ih hnext hopen
        refine ⟨hrest, fun before after hcs => ?_⟩
        cases before with
        | nil =>
            rw [List.append_nil]
            exact hquote (List.cons.inj hcs).1
        | cons d before =>
            obtain ⟨rfl, htail⟩ := List.cons.inj hcs
            simpa using hinside before after htail
      cases escaped with
      | false =>
          have hplain : ¬ Stretch.Escapes earlier := fun he => Bool.false_ne_true (hescaped.mpr he)
          unfold read at h ⊢
          by_cases hquote : c = '\x22'
          · simp [hquote] at h
          · by_cases hslash : c = '\\'
            · simp only [hslash, if_true] at h ⊢
              subst hslash
              exact hlater (by simpa [Stretch.Escapes.slash] using hplain) h
                fun he => absurd he (by decide)
            · simp only [hquote, hslash, if_false] at h ⊢
              exact hlater (by simpa using Stretch.Escapes.other hslash) h
                fun he => absurd he hquote
      | true =>
          have hescapes := hescaped.mp rfl
          have hnext : false = true ↔ Stretch.Escapes (earlier ++ [c]) := by
            by_cases hslash : c = '\\'
            · subst hslash
              simpa [Stretch.Escapes.slash] using hescapes
            · simpa using Stretch.Escapes.other hslash
          unfold read at h ⊢
          dsimp only at h ⊢
          split at h <;> exact hlater hnext h fun _ => hescapes

theorem StringTail.faults_escapes {n : Nat} {escaped : Bool} {cs : List Char} :
    ∀ f ∈ (read n escaped cs).faults, ∃ c, f.2 = .invalidEscape c := by
  induction cs generalizing n escaped with
  | nil => cases escaped <;> exact fun _ hf => (List.not_mem_nil hf).elim
  | cons c cs ih =>
      cases escaped with
      | false =>
          unfold read
          split
          · exact fun _ hf => (List.not_mem_nil hf).elim
          · split <;> exact ih
      | true =>
          unfold read
          dsimp only
          split
          · exact ih
          · intro f hf
            rcases List.mem_cons.mp hf with rfl | hf
            · exact ⟨c, rfl⟩
            · exact ih f hf

namespace Piece

/-- What is wrong with a piece that begins on a line. -/
def reports (p : Piece) (line : Nat) : List Diagnostic :=
  p.faults.map fun (n, error) => Diagnostic.mk (.line (line + n : Nat)) error

/-- A stretch is what a piece holds that begins on a line. -/
structure Holds (p : Piece) (line : Nat) (s : Stretch) : Prop where
  chars : s.chars = p.consumed
  token : s.token?.toList = p.tokens (line + p.consumed.count '\n')
  report : (p.reports line).filter Diagnostic.loses =
    (s.report? (line + p.consumed.count '\n')).toList
  stands : s.Stands (line + p.consumed.count '\n') p.rest

variable {p : Piece} {line : Nat} {c : Char} {cs : List Char}

theorem reports_escapes (h : ∀ f ∈ p.faults, ∃ c, f.2 = .invalidEscape c) :
    (p.reports line).filter Diagnostic.loses = [] := by
  rw [List.filter_eq_nil_iff]
  intro d hd
  obtain ⟨f, hf, rfl⟩ := List.mem_map.mp hd
  obtain ⟨c, hc⟩ := h f hf
  simp [Diagnostic.loses, hc]

/-- A piece with a token, which nothing is left out of. -/
theorem holds_token {kind : TokenKind} {literal : Option Literal}
    (htoken : p.token = some (kind, literal)) (hconsumed : p.consumed ≠ [])
    (hfaults : ∀ f ∈ p.faults, ∃ c, f.2 = .invalidEscape c) : ∃ s, p.Holds line s := by
  refine ⟨.token ⟨kind, String.ofList p.consumed, literal, line + p.consumed.count '\n'⟩, ?_, ?_, ?_, ?_⟩
  · exact String.toList_ofList
  · unfold tokens
    rw [htoken]
    rfl
  · exact reports_escapes hfaults
  · refine ⟨fun hempty => hconsumed ?_, rfl⟩
    exact String.toList_ofList.symm.trans (congrArg String.toList hempty)

theorem holds_slash : ∃ s, (slash '/' cs).Holds line s := by
  unfold slash
  split
  · next cs =>
      refine ⟨.comment (cs.takeWhile (· ≠ '\n')), rfl, rfl, rfl, ?_, ?_⟩
      · intro hmem
        simpa using List.mem_takeWhile_imp hmem
      · cases hrest : cs.dropWhile (· ≠ '\n') with
        | nil => exact .inl rfl
        | cons d more =>
            have hd := List.head?_dropWhile_not (fun c => decide (c ≠ '\n')) cs
            rw [hrest] at hd
            exact .inr ⟨more, by simpa using hd⟩
  · exact holds_token rfl (List.cons_ne_nil _ _) fun _ hf => (List.not_mem_nil hf).elim

theorem holds_string : ∃ s, (string '\x22' cs).Holds line s := by
  unfold string
  dsimp only
  cases hclosed : (StringTail.read 0 false cs).closed with
  | true =>
      rw [if_pos rfl]
      exact holds_token rfl (List.cons_ne_nil _ _) StringTail.faults_escapes
  | false =>
      have hstart : false = true ↔ Stretch.Escapes [] :=
        ⟨fun h => (Bool.false_ne_true h).elim, fun h => (Stretch.Escapes.nil h).elim⟩
      obtain ⟨hrest, hinside⟩ := StringTail.read_open hstart hclosed
      have hconsumed : (StringTail.read 0 false cs).consumed = cs := by
        have hall := StringTail.consumed_append_rest 0 false cs
        rwa [hrest, List.append_nil] at hall
      rw [if_neg Bool.false_ne_true]
      refine ⟨.unclosed cs, ?_, rfl, ?_, hrest, hinside⟩
      · exact congrArg ('\x22' :: ·) hconsumed.symm
      · let p : Piece := { consumed := [], rest := [], faults := (StringTail.read 0 false cs).faults }
        have hescapes : (p.reports line).filter Diagnostic.loses = [] :=
          reports_escapes StringTail.faults_escapes
        unfold reports at hescapes ⊢
        rw [List.map_append, List.filter_append, hescapes]
        rfl

/-- Each piece is a stretch. -/
theorem holds_stretch (c : Char) (cs : List Char) (line : Nat) :
    ∃ s, (ofChars c cs).Holds line s := by
  have hnone : ∀ f ∈ ([] : List (Nat × StaticError)), ∃ c, f.2 = .invalidEscape c :=
    fun _ hf => (List.not_mem_nil hf).elim
  unfold ofChars
  cases hsingle : TokenKind.single? c with
  | some kind => exact holds_token rfl (List.cons_ne_nil _ _) hnone
  | none =>
      cases hpair : TokenKind.pair? c with
      | some kinds =>
          dsimp only
          split <;> exact holds_token rfl (List.cons_ne_nil _ _) hnone
      | none =>
          dsimp only
          by_cases hslash : c = '/'
          · rw [if_pos hslash, hslash]
            exact holds_slash
          rw [if_neg hslash]
          by_cases hblank : c = ' ' ∨ c = '\r' ∨ c = '\t' ∨ c = '\n'
          · rw [if_pos hblank]
            exact ⟨.blank c, rfl, rfl, rfl, by simpa [Stretch.Stands] using hblank⟩
          rw [if_neg hblank]
          by_cases hquote : c = '\x22'
          · rw [if_pos hquote, hquote]
            exact holds_string
          rw [if_neg hquote]
          by_cases hdigit : c.isDigit = true
          · rw [if_pos hdigit]
            by_cases h : ∃ d after, cs.dropWhile Char.isDigit = '.' :: d :: after ∧ d.isDigit = true
            · obtain ⟨d, after, hcs, hd⟩ := h
              rw [number_fraction c hcs hd]
              exact holds_token rfl (List.cons_ne_nil _ _) hnone
            · rw [number_whole c fun d after hcs => Bool.eq_false_iff.mpr fun hd => h ⟨d, after, hcs, hd⟩]
              exact holds_token rfl (List.cons_ne_nil _ _) hnone
          rw [if_neg hdigit]
          by_cases hname : isNameStart c = true
          · rw [if_pos hname]
            exact holds_token rfl (List.cons_ne_nil _ _) hnone
          rw [if_neg hname]
          have hline : [c].count '\n' = 0 :=
            List.count_eq_zero.mpr fun hmem => hblank (.inr (.inr (.inr (List.mem_singleton.mp hmem).symm)))
          refine ⟨.stray c, rfl, rfl, ?_, ?_⟩
          · rw [hline]
            rfl
          · exact ⟨hsingle, hpair, hslash, by simpa using hblank, hquote,
              Bool.eq_false_iff.mpr hdigit, Bool.eq_false_iff.mpr hname⟩

end Piece

namespace Scanner

theorem tick_tokens (s : Scanner) (c : Char) (cs : List Char) :
    (s.tick c cs).tokens.toList = s.tokens.toList ++ (Piece.ofChars c cs).tokens (s.tick c cs).line := by
  unfold tick Piece.tokens
  dsimp only
  cases (Piece.ofChars c cs).token with
  | none => exact (List.append_nil _).symm
  | some kind => exact Array.toList_push

theorem tick_faults (s : Scanner) (c : Char) (cs : List Char) :
    (s.tick c cs).faults.toList = s.faults.toList ++ (Piece.ofChars c cs).reports s.line :=
  Array.toList_appendList

/-- What stretches say of a scanner that has run over them. -/
structure Covers (s s' : Scanner) (stretches : List Stretch) : Prop where
  text : Stretch.text stretches = s.rest
  tokens : s'.tokens.toList = s.tokens.toList ++ stretches.filterMap Stretch.token?
  faults : s'.faults.toList.filter Diagnostic.loses =
    s.faults.toList.filter Diagnostic.loses ++ Stretch.reports s.line stretches
  stands : ∀ before stretch after, stretches = before ++ stretch :: after →
    stretch.Stands (s.line + (Stretch.text (before ++ [stretch])).count '\n') (Stretch.text after)
  line : s'.line = s.line + s.rest.count '\n'

namespace Covers
variable {s s' : Scanner} {c : Char} {cs : List Char} {stretch : Stretch} {stretches : List Stretch}

theorem done (h : s.rest = []) : s.Covers s [] where
  text := h.symm
  tokens := (List.append_nil _).symm
  faults := (List.append_nil _).symm
  stands _ _ _ heq := absurd heq.symm (List.append_ne_nil_of_right_ne_nil _ (List.cons_ne_nil _ _))
  line := by rw [h]; rfl

/-- One piece, and what is scanned from behind it. -/
theorem tick (hrest : s.rest = c :: cs) (hpiece : (Piece.ofChars c cs).Holds s.line stretch)
    (h : (s.tick c cs).Covers s' stretches) : s.Covers s' (stretch :: stretches) where
  text := by
    rw [hrest, ← Piece.consumed_append_rest c cs, ← hpiece.chars]
    exact congrArg (stretch.chars ++ ·) h.text
  tokens := by
    rw [h.tokens, tick_tokens, List.append_assoc, List.filterMap_cons]
    refine congrArg (s.tokens.toList ++ ·) ?_
    rw [show (s.tick c cs).line = s.line + (Piece.ofChars c cs).consumed.count '\n' from rfl,
      ← hpiece.token]
    cases stretch.token? <;> rfl
  faults := by
    rw [h.faults, tick_faults, List.filter_append, hpiece.report, List.append_assoc, Stretch.reports,
      hpiece.chars]
    rfl
  stands before stretch' after heq := by
    cases before with
    | nil =>
        obtain ⟨rfl, rfl⟩ := List.cons.inj heq
        rw [h.text, List.nil_append, Stretch.text, List.flatMap_singleton, hpiece.chars]
        exact hpiece.stands
    | cons first before =>
        obtain ⟨rfl, htail⟩ := List.cons.inj heq
        have hstands := h.stands before stretch' after htail
        rw [List.cons_append, Stretch.text, List.flatMap_cons, List.count_append, ← Nat.add_assoc,
          hpiece.chars]
        exact hstands
  line := by
    rw [h.line, hrest, ← Piece.consumed_append_rest c cs, List.count_append, ← Nat.add_assoc]
    rfl

end Covers

theorem covers_run {fuel : Nat} {s : Scanner} (hfuel : s.rest.length ≤ fuel) :
    ∃ stretches, s.Covers (s.run fuel) stretches := by
  -- Every piece takes a character, so that fuel for the whole text is fuel for the rest behind it.
  induction fuel generalizing s with
  | zero => exact ⟨[], .done (List.length_eq_zero_iff.mp (Nat.le_zero.mp hfuel))⟩
  | succ fuel ih =>
      unfold run
      cases hrest : s.rest with
      | nil => exact ⟨[], .done hrest⟩
      | cons c cs =>
          rw [hrest, List.length_cons] at hfuel
          obtain ⟨stretch, hpiece⟩ := Piece.holds_stretch c cs s.line
          obtain ⟨stretches, hcovers⟩ := ih (s := s.tick c cs)
            (Nat.le_trans (Piece.rest_length c cs) (Nat.le_of_succ_le_succ hfuel))
          exact ⟨_, hcovers.tick hrest hpiece⟩

end Scanner

/-- Nothing of a text is lost, and its lines are counted exactly: it is a sequence of stretches; the
tokens are those of the stretches, each on the line on which it ends; what else there is are blanks,
comments up to the end of a line, characters that nothing begins with, and perhaps a string that is
not closed and takes the rest of the text; the latter two are reported, once each and in their order.
The end of the text, which stands once behind the tokens, is on the line that all its line feeds lead
to. -/
theorem scan_covers (source : String) : ∃ stretches : List Stretch,
    Stretch.text stretches = source.toList ∧
    (scan source).tokens = stretches.filterMap Stretch.token? ∧
    (scan source).faults.filter Diagnostic.loses = Stretch.reports 1 stretches ∧
    (∀ before stretch after, stretches = before ++ stretch :: after →
      stretch.Stands (1 + (Stretch.text (before ++ [stretch])).count '\n') (Stretch.text after)) ∧
    (scan source).endLine = 1 + source.toList.count '\n' := by
  obtain ⟨stretches, h⟩ := Scanner.covers_run (s := { rest := source.toList }) (Nat.le_refl _)
  exact ⟨stretches, h.text, h.tokens, h.faults, h.stands, h.line⟩

end Treewalk
