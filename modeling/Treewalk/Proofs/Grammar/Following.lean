import Treewalk.Proofs.Grammar.Progress

/-!
# Watched parsers follow the parsers

A watched parser ends as the parser does, and what happened on the way is a course of reading. It is
counted how many tokens a construct takes at least, so that no loop uses up its bound, and how many
may be left at most, so that the nesting levels suffice.
-/
namespace Treewalk

/-- A token list to be read, and whether reading may be given up for nesting beyond the limit. -/
structure Input where
  tokens : List Token
  endLine : Nat
  deep : Prop

namespace Tracing
open Watched

/-- This is how far reading has come. -/
def Reached (input : Input) (s : Watched Cursor ReadingMark) : Prop :=
  Progress input.tokens input.endLine none s.state s.notes

/-- An error at the current token unwinds a declaration. -/
def Unwinding (input : Input) (s : Watched Cursor ReadingMark) : Prop :=
  Progress input.tokens input.endLine (some s.state.position) s.state s.notes

/-! ### Looking at tokens and taking them -/

/-- The current token has been looked at. -/
def lookedAt (s : Watched Cursor ReadingMark) : Watched Cursor ReadingMark :=
  { s with notes := ⟨s.state.position, .looked 0 s.state.rest.head?⟩ :: s.notes }

/-- The token before the current one has been looked at. -/
def lookedBack (s : Watched Cursor ReadingMark) : Watched Cursor ReadingMark :=
  { s with notes := ⟨s.state.position, .lookedBack⟩ :: s.notes }

/-- The current token has been looked at and taken; these tokens are left. -/
def taken (s : Watched Cursor ReadingMark) (rest : List Token) : Watched Cursor ReadingMark :=
  lookedBack { lookedAt s with state := { s.state with rest := rest } }

variable {α β : Type}

theorem takeMap?_run (f : Token → Option β) (s : Watched Cursor ReadingMark) :
    takeMap? f s =
      match s.state.rest with
      | [] => .ok none (lookedAt s)
      | t :: rest =>
          match f t with
          | some b => .ok (some b) (taken s rest)
          | none => .ok none (lookedAt s) := by
  have hrun : takeMap? f s = EStateM.bind (quietly (Parser.takeMap? f))
      (fun b => if b.isSome = true then mark .lookedBack >>= fun _ => Pure.pure b
        else Pure.pure b) (lookedAt s) := rfl
  have hstate : (lookedAt s).state = s.state := rfl
  rw [hrun, EStateM.bind, quietly, hstate, Parser.takeMap?_run]
  cases s.state.rest with
  | nil => rfl
  | cons t rest =>
      dsimp only
      cases f t <;> rfl

theorem advance_run (s : Watched Cursor ReadingMark) :
    advance s = .ok () (taken s s.state.rest.tail) := rfl

/-- Finding out whether a function with a name follows takes no token. -/
theorem functionFollows_stays (c : Cursor) :
    ∃ b, Parser.functionFollows c = .ok b c ∧ (b = true → c.rest ≠ []) := by
  obtain ⟨_ | ⟨t, _ | ⟨next, more⟩⟩, endLine, total, reports⟩ := c
  · exact ⟨false, rfl, fun hb => by cases hb⟩
  · exact ⟨false, rfl, fun _ => List.cons_ne_nil _ _⟩
  · exact ⟨_, rfl, fun _ => List.cons_ne_nil _ _⟩

theorem functionFollows_quietly {tokens : List Token} {endLine : Nat}
    {s : Watched Cursor ReadingMark} (h : Progress tokens endLine none s.state s.notes) :
    ∃ s', functionFollows s = quietly Parser.functionFollows s' ∧ s'.state = s.state ∧
      Progress tokens endLine none s'.state s'.notes := by
  obtain ⟨⟨_ | ⟨t, rest⟩, stop, total, reports⟩, notes⟩ := s
  · exact ⟨lookedAt ⟨⟨[], stop, total, reports⟩, notes⟩, rfl, rfl, h.looked⟩
  · let s : Watched Cursor ReadingMark := ⟨⟨t :: rest, stop, total, reports⟩, notes⟩
    have hrun : functionFollows s =
        ((if t.kind = .fun ∨ t.kind = .define then
            look >>= fun c => mark (.looked 1 c.rest[1]?) >>= fun _ =>
              quietly Parser.functionFollows
          else quietly Parser.functionFollows) : Tracing Bool) (lookedAt s) := rfl
    rw [hrun]
    split
    · exact ⟨_, rfl, rfl, h.looked.lookedAhead (List.cons_ne_nil t rest)⟩
    · exact ⟨lookedAt s, rfl, rfl, h.looked⟩

section
variable {tokens : List Token} {endLine : Nat} {error : Option Nat} {s : Watched Cursor ReadingMark}

theorem progress_taken (h : Progress tokens endLine error s.state s.notes) {t : Token}
    {rest : List Token} (hrest : s.state.rest = t :: rest) :
    0 < (taken s rest).state.position ∧
      Progress tokens endLine error (taken s rest).state (taken s rest).notes := by
  have hpos : 0 < Cursor.position { s.state with rest := rest } := by
    rw [h.position_read hrest]
    exact Nat.succ_pos _
  exact ⟨hpos, (h.looked.read hrest).lookedBack hpos⟩

/-- At the end nothing is taken. -/
theorem progress_end (h : Progress tokens endLine error s.state s.notes) (htokens : tokens ≠ [])
    (hrest : s.state.rest = []) :
    Progress tokens endLine error (taken s []).state (taken s []).notes := by
  have hadd := h.position_add
  have hpos := List.length_pos_iff.mpr htokens
  rw [hrest, List.length_nil] at hadd
  have hstate : ({ s.state with rest := [] } : Cursor) = s.state := by rw [← hrest]
  unfold taken
  rw [hstate]
  exact h.looked.lookedBack (by omega)

/-- Tokens are skipped as by the parser. -/
theorem skipStatement_run (htokens : tokens ≠ []) (rest : List Token)
    (h : Progress tokens endLine error s.state s.notes) (hrest : s.state.rest = rest) :
    ∃ s', skipStatement rest s = .ok () s' ∧ s'.state = s.state.synchronize ∧
      Progress tokens endLine error s'.state s'.notes := by
  induction rest generalizing s with
  | nil =>
      refine ⟨taken s [], ?_, ?_, progress_end h htokens hrest⟩
      · rw [skipStatement, advance_run, hrest]
        rfl
      · rw [Cursor.synchronize, hrest]
        rfl
  | cons t rest ih =>
      obtain ⟨hpos, htaken⟩ := progress_taken h hrest
      obtain ⟨⟨rest', stop, total, reports⟩, notes⟩ := s
      obtain rfl : rest' = t :: rest := hrest
      cases rest with
      | nil => exact ⟨lookedAt (taken _ []), rfl, rfl, htaken.looked⟩
      | cons next more =>
          have hback := htaken.looked.lookedBack hpos
          let s : Watched Cursor ReadingMark :=
            ⟨⟨t :: next :: more, stop, total, reports⟩, notes⟩
          change ∃ s', (if t.kind = .semicolon ∨ next.kind.startsStatement = true then Pure.pure ()
            else skipStatement (next :: more) : Tracing Unit)
              (lookedBack (lookedAt (taken s (next :: more)))) = .ok () s' ∧ _
          rw [Cursor.synchronize, Cursor.skipStatement]
          split
          · exact ⟨_, rfl, rfl, hback⟩
          · exact ih hback rfl

theorem resume_run (htokens : tokens ≠ [])
    (h : Progress tokens endLine (some s.state.position) s.state s.notes) :
    ∃ s', (resume >>= fun _ => Pure.pure ([] : List α)) s = .ok [] s' ∧
      s'.state = s.state.synchronize ∧ Progress tokens endLine none s'.state s'.notes := by
  obtain ⟨s', hrun, hstate, hprogress⟩ := skipStatement_run htokens s.state.rest h rfl
  refine ⟨{ s' with notes := ⟨s'.state.position, .resumed⟩ :: s'.notes }, ?_, hstate,
    hprogress.resumed (hstate ▸ h.resumesAt)⟩
  change EStateM.bind (EStateM.bind (skipStatement s.state.rest) fun _ => mark .resumed)
    (fun _ => Pure.pure []) s = _
  rw [EStateM.bind, EStateM.bind, hrun]
  rfl

end

/-! ### Following -/

/-- An end of a watched parser that had so many tokens left and takes at least `k` of them. -/
def Ends (input : Input) (k left : Nat) :
    EStateM.Result ParseStop (Watched Cursor ReadingMark) α → Prop
  | .ok _ s => Reached input s ∧ s.state.rest.length + k ≤ left
  | .error .unwind s => Unwinding input s ∧ s.state.rest.length ≤ left
  | .error .tooDeep s => Reached input s ∧ input.deep

/-- An end of a watched parser and the end of the parser. -/
structure Agrees (input : Input) (k left : Nat)
    (r : EStateM.Result ParseStop (Watched Cursor ReadingMark) α)
    (r' : EStateM.Result ParseStop Cursor α) : Prop where
  same : forget r = r'
  ends : Ends input k left r

/-- If at most `n` tokens are left, the watched parser follows the parser and takes at least `k`. -/
def Tracks (input : Input) (n k : Nat) (p : Tracing α) (q : Parser α) : Prop :=
  ∀ s, Reached input s → s.state.rest.length ≤ n →
    Agrees input k s.state.rest.length (p s) (q s.state)

/-- The same of an item of a loop, which takes a token if one is left. -/
def TracksItem (input : Input) (n : Nat) (p : Tracing α) (q : Parser α) : Prop :=
  ∀ s, Reached input s → s.state.rest ≠ [] → s.state.rest.length ≤ n →
    Agrees input 1 s.state.rest.length (p s) (q s.state)

variable {input : Input} {n m k i j left : Nat}

namespace Agrees

/-- What takes fewer tokens of more has as many left. -/
theorem within {r : EStateM.Result ParseStop (Watched Cursor ReadingMark) α}
    {r' : EStateM.Result ParseStop Cursor α} (h : Agrees input k left r r')
    (htaken : j + left ≤ k + m) (hleft : left ≤ m) : Agrees input j m r r' := by
  obtain ⟨hsame, hends⟩ := h
  refine ⟨hsame, ?_⟩
  match r, hends with
  | .ok _ s, ⟨hreached, hlength⟩ => exact ⟨hreached, by omega⟩
  | .error .unwind s, ⟨hunwinding, hlength⟩ => exact ⟨hunwinding, by omega⟩
  | .error .tooDeep s, hends => exact hends

/-- A token was taken before. -/
theorem read {r : EStateM.Result ParseStop (Watched Cursor ReadingMark) α}
    {r' : EStateM.Result ParseStop Cursor α} (h : Agrees input (k - 1) left r r') :
    Agrees input k (left + 1) r r' := h.within (by omega) (Nat.le_succ left)

/-- The second part of a sequence has the fewer tokens, the more the first one takes. -/
theorem bind {p : Tracing α} {q : Parser α} {f : α → Tracing β} {g : α → Parser β}
    {s : Watched Cursor ReadingMark} (hp : Agrees input i left (p s) (q s.state))
    (hf : ∀ a m, m + i ≤ left → Tracks input m (k - i) (f a) (g a)) :
    Agrees input k left ((p >>= f) s) ((q >>= g) s.state) := by
  change Agrees input k left (EStateM.bind p f s) (EStateM.bind q g s.state)
  obtain ⟨hsame, hends⟩ := hp
  unfold EStateM.bind
  rw [← hsame]
  match p s, hends with
  | .ok a s', ⟨hreached, hlength⟩ =>
      exact (hf a _ hlength s' hreached (Nat.le_refl _)).within (by omega) (by omega)
  | .error .unwind s', hends => exact ⟨rfl, hends⟩
  | .error .tooDeep s', hends => exact ⟨rfl, hends⟩

end Agrees

namespace Tracks
variable {p : Tracing α} {q : Parser α} {f : α → Tracing β} {g : α → Parser β}

theorem mono (h : Tracks input n k p q) (hm : m ≤ n) (hj : j ≤ k) : Tracks input m j p q :=
  fun s hs hle => (h s hs (Nat.le_trans hle hm)).within (by omega) (Nat.le_refl _)

theorem pure (a : α) : Tracks input n 0 (Pure.pure a) (Pure.pure a) :=
  fun _ hs _ => ⟨rfl, hs, Nat.le_refl _⟩

theorem bind (hp : Tracks input n i p q)
    (hf : ∀ a m, m + i ≤ n → Tracks input m (k - i) (f a) (g a)) :
    Tracks input n k (p >>= f) (q >>= g) :=
  fun s hs hle => (hp s hs hle).bind fun a m hm => hf a m (Nat.le_trans hm hle)

theorem seq (hp : Tracks input n i p q) (hf : ∀ a, Tracks input n (k - i) (f a) (g a)) :
    Tracks input n k (p >>= f) (q >>= g) :=
  bind hp fun a _ hm => (hf a).mono (Nat.le_of_add_right_le hm) (Nat.le_refl _)

theorem map (hp : Tracks input n k p q) (f : α → β) : Tracks input n k (f <$> p) (f <$> q) :=
  seq hp fun a => (pure (f a)).mono (Nat.le_refl _) (by omega)

theorem tooDeep (h : input.deep) : Tracks input n k (tooDeep : Tracing α) Parser.tooDeep :=
  fun _ hs _ => ⟨rfl, hs, h⟩

/-! ### Single tokens -/

theorem reportAt (place : Place) (error : StaticError) :
    Tracks input n 0 (reportAt place error) (Parser.reportAt place error) :=
  fun _ hs _ => ⟨rfl, hs.report place error, Nat.le_refl _⟩

theorem reportHere (error : StaticError) :
    Tracks input n 0 (reportHere error) (Parser.reportHere error) :=
  fun _ hs _ => ⟨rfl, hs.looked.report _ error, Nat.le_refl _⟩

theorem fail (what : Expectation) : Tracks input n k (fail what : Tracing α) (Parser.fail what) :=
  fun _ hs _ => ⟨rfl, hs.looked.unwound _, Nat.le_refl _⟩

theorem check (kind : TokenKind) : Tracks input n 0 (check kind) (Parser.check kind) := by
  intro s hs _
  have hrun : Tracing.check kind s = quietly (Parser.check kind) (Tracing.lookedAt s) := rfl
  have hstate : (Tracing.lookedAt s).state = s.state := rfl
  obtain ⟨b, hb⟩ : ∃ b, Parser.check kind s.state = .ok b s.state := by
    rw [Parser.check_run]
    cases s.state.rest <;> exact ⟨_, rfl⟩
  rw [hrun, quietly, hstate, hb]
  exact ⟨rfl, hs.looked, Nat.le_refl _⟩

/-- A choice by the current token; if it is taken, fewer tokens are left. -/
theorem fork {f : Token → Option β} {next : Option β → Tracing α} {next' : Option β → Parser α}
    (hsome : ∀ t b, f t = some b → ∀ m < n, Tracks input m (k - 1) (next (some b)) (next' (some b)))
    (hnone : Tracks input n k (next none) (next' none)) :
    Tracks input n k (takeMap? f >>= next) (Parser.takeMap? f >>= next') := by
  intro s hs hle
  have hstay : Agrees input k s.state.rest.length (next none (lookedAt s)) (next' none s.state) :=
    hnone (lookedAt s) hs.looked hle
  change Agrees input k _ (EStateM.bind (takeMap? f) next s)
    (EStateM.bind (Parser.takeMap? f) next' s.state)
  rw [EStateM.bind, EStateM.bind, takeMap?_run, Parser.takeMap?_run]
  cases hrest : s.state.rest with
  | nil =>
      rw [hrest] at hstay
      exact hstay
  | cons t rest =>
      dsimp only
      cases hf : f t with
      | none =>
          rw [hrest] at hstay
          exact hstay
      | some b =>
          rw [hrest, List.length_cons] at hle
          have hread := (progress_taken hs hrest).2
          exact (hsome t b hf rest.length hle (taken s rest) hread (Nat.le_refl _)).read

theorem forkKind {kind : TokenKind} {next : Option Token → Tracing α} {next' : Option Token → Parser α}
    (hsome : ∀ t, ∀ m < n, Tracks input m (k - 1) (next (some t)) (next' (some t)))
    (hnone : Tracks input n k (next none) (next' none)) :
    Tracks input n k (take? kind >>= next) (Parser.take? kind >>= next') := by
  refine fork (fun t b hb m hm => ?_) hnone
  exact hsome b m hm

theorem expect (kind : TokenKind) (what : Expectation) :
    Tracks input n 1 (expect kind what) (Parser.expect kind what) :=
  forkKind (fun t _ _ => pure t) (fail what)

/-! ### Loops and errors -/

/-- A loop has more fuel than tokens are left. -/
theorem perToken {loop : Nat → Tracing α} {loop' : Nat → Parser α}
    (h : ∀ fuel, ∀ m ≤ n, m < fuel → Tracks input m k (loop fuel) (loop' fuel)) :
    Tracks input n k (perToken loop) (Parser.perToken loop') := by
  intro s hs hle
  have hadd := hs.position_add
  have htotal := hs.frame.total
  exact h (s.state.total + 1) s.state.rest.length hle (by omega) s hs (Nat.le_refl _)

end Tracks

namespace TracksItem
variable {p : Tracing α} {q : Parser α}

theorem of_tracks (h : Tracks input n 1 p q) : TracksItem input n p q := fun s hs _ hle => h s hs hle

theorem mono (h : TracksItem input n p q) (hm : m ≤ n) : TracksItem input m p q :=
  fun s hs hrest hle => h s hs hrest (Nat.le_trans hle hm)

/-- A round takes a token. -/
theorem round (h : TracksItem input n p q) : TracksItem input n (round p) q := by
  intro s hs hrest hle
  obtain ⟨hsame, hends⟩ := h s hs hrest hle
  have hrun : Tracing.round p s =
      EStateM.bind p (fun a => mark (.round s.state.position) >>= fun _ => Pure.pure a) s := rfl
  rw [hrun, EStateM.bind, ← hsame]
  match p s, hends with
  | .ok a s', ⟨hreached, hlength⟩ =>
      have hadd := hs.position_add
      have hadd' := hreached.position_add
      have hlater : s.state.position < s'.state.position := by omega
      exact ⟨rfl, hreached.round hlater, hlength⟩
  | .error .unwind s', hends => exact ⟨rfl, hends⟩
  | .error .tooDeep s', hends => exact ⟨rfl, hends⟩

/-- What unwinds is dropped, and the token with the error is not read again. -/
theorem recovering (h : Tracks input n 1 p q) :
    TracksItem input n (recovering p) (Parser.recovering q) := by
  intro s hs hrest hle
  obtain ⟨hsame, hends⟩ := h s hs hle
  have htokens : input.tokens ≠ [] := fun hnil =>
    hrest (List.suffix_nil.mp (hnil ▸ hs.frame.rest))
  have hpos := List.length_pos_iff.mpr hrest
  unfold Tracing.recovering Parser.recovering
  rw [← hsame]
  match p s, hends with
  | .ok a s', hends => exact ⟨rfl, hends⟩
  | .error .unwind s', ⟨hunwinding, hlength⟩ =>
      obtain ⟨s'', hrun, hstate, hreached⟩ := resume_run (α := α) htokens hunwinding
      dsimp only
      rw [hrun]
      refine ⟨congrArg (EStateM.Result.ok []) hstate, hreached, ?_⟩
      rw [hstate]
      change (Cursor.skipStatement s'.state.rest).length + 1 ≤ _
      cases hc : s'.state.rest with
      | nil => exact hpos
      | cons t rest =>
          have hskip := Cursor.skipStatement_length t rest
          rw [hc, List.length_cons] at hlength
          omega
  | .error .tooDeep s', hends => exact ⟨rfl, hends⟩

end TracksItem

namespace Tracks

/-- A round of a loop and the rounds behind it. -/
theorem rounds {item : Tracing (List α)} {item' : Parser (List α)} (h : TracksItem input n item item')
    {others : Tracing (List α)} {others' : Parser (List α)}
    (hothers : ∀ m < n, Tracks input m 0 others others') {s : Watched Cursor ReadingMark}
    (hs : Reached input s) (hrest : s.state.rest ≠ []) (hle : s.state.rest.length ≤ n) :
    Agrees input 0 s.state.rest.length
      ((round item >>= fun first => others >>= fun others => Pure.pure (first ++ others)) s)
      ((item' >>= fun first => others' >>= fun others => Pure.pure (first ++ others)) s.state) := by
  refine (h.round s hs hrest hle).bind fun first m hm => ?_
  exact seq (hothers m (by omega)) fun others => pure (first ++ others)

theorem untilBrace {item : Tracing (List α)} {item' : Parser (List α)}
    (h : TracksItem input n item item') (fuel : Nat) : ∀ m ≤ n, m < fuel →
      Tracks input m 0 (untilBrace item fuel) (Parser.untilBrace item' fuel) := by
  induction fuel with
  | zero => exact fun m _ hm => absurd hm (Nat.not_lt_zero m)
  | succ fuel ih =>
      intro m hm hfuel s hs hle
      have hothers : ∀ k < m, Tracks input k 0 (Tracing.untilBrace item fuel)
          (Parser.untilBrace item' fuel) := fun k hk => ih k (by omega) (by omega)
      have hround := rounds (h.mono hm) hothers (s := lookedAt s) hs.looked
      have hstop := pure ([] : List α) (lookedAt s) hs.looked hle
      obtain ⟨⟨rest, endLine, total, reports⟩, notes⟩ := s
      cases rest with
      | nil => exact hstop
      | cons t rest =>
          let s : Watched Cursor ReadingMark := ⟨⟨t :: rest, endLine, total, reports⟩, notes⟩
          change Agrees input 0 (t :: rest).length
            ((if t.kind = .rightBrace then Pure.pure []
              else Tracing.round item >>= fun first => Tracing.untilBrace item fuel >>= fun others =>
                Pure.pure (first ++ others) : Tracing (List α)) (lookedAt s))
            ((if t.kind = .rightBrace then Pure.pure []
              else item' >>= fun first => Parser.untilBrace item' fuel >>= fun others =>
                Pure.pure (first ++ others) : Parser (List α)) s.state)
          by_cases hbrace : t.kind = .rightBrace
          · rw [if_pos hbrace, if_pos hbrace]
            exact hstop
          · rw [if_neg hbrace, if_neg hbrace]
            exact hround (List.cons_ne_nil t rest) hle

theorem program {item : Tracing (List Stmt)} {item' : Parser (List Stmt)}
    (h : TracksItem input n item item') (fuel : Nat) : ∀ m ≤ n, m < fuel →
      Tracks input m 0 (program item fuel) (Parser.program item' fuel) := by
  induction fuel with
  | zero => exact fun m _ hm => absurd hm (Nat.not_lt_zero m)
  | succ fuel ih =>
      intro m hm hfuel s hs hle
      have hothers : ∀ k < m, Tracks input k 0 (Tracing.program item fuel)
          (Parser.program item' fuel) := fun k hk => ih k (by omega) (by omega)
      have hround := rounds (h.mono hm) hothers (s := lookedAt s) hs.looked
      have hstop := pure ([] : List Stmt) (lookedAt s) hs.looked hle
      obtain ⟨⟨rest, endLine, total, reports⟩, notes⟩ := s
      cases rest with
      | nil => exact hstop
      | cons t rest => exact hround (List.cons_ne_nil t rest) hle

theorem commaSeparated {item : Tracing α} {item' : Parser α} (h : Tracks input n 1 item item')
    (surplus : StaticError) (fuel : Nat) : ∀ count, ∀ m ≤ n, m < fuel →
      Tracks input m 1 (commaSeparated item surplus fuel count)
        (Parser.commaSeparated item' surplus fuel count) := by
  induction fuel with
  | zero => exact fun _ m _ hm => absurd hm (Nat.not_lt_zero m)
  | succ fuel ih =>
      intro count m hm hfuel
      have hitem := h.mono hm (Nat.le_refl 1)
      have hmore : ∀ first : α, ∀ k < m, Tracks input k 0
          (Tracing.commaSeparated item surplus fuel (count + 1) >>= fun others =>
            Pure.pure (first :: others))
          (Parser.commaSeparated item' surplus fuel (count + 1) >>= fun others =>
            Pure.pure (first :: others)) := fun first k hk =>
        seq (ih (count + 1) k (by omega) (by omega)) fun others => pure (first :: others)
      unfold Tracing.commaSeparated Parser.commaSeparated
      by_cases hmany : maxArguments ≤ count
      · simp only [hmany, if_true]
        exact seq (reportHere surplus) fun _ => seq hitem fun first =>
          forkKind (fun _ => hmore first) (pure [first])
      · simp only [hmany, if_false]
        exact seq hitem fun first => forkKind (fun _ => hmore first) (pure [first])

theorem leftward {operator : Token → Option (α → α → α)} {operand : Tracing α} {operand' : Parser α}
    (h : Tracks input n 1 operand operand') (fuel : Nat) : ∀ left, ∀ m ≤ n, m < fuel →
      Tracks input m 0 (leftward operator operand fuel left)
        (Parser.leftward operator operand' fuel left) := by
  induction fuel with
  | zero => exact fun _ m _ hm => absurd hm (Nat.not_lt_zero m)
  | succ fuel ih =>
      intro left m hm hfuel
      unfold Tracing.leftward Parser.leftward
      refine fork (fun t join _ k hk => ?_) (pure left)
      refine seq (h.mono (by omega) (Nat.le_refl _)) fun right => ?_
      exact (ih (join left right) k (by omega) (by omega)).mono (Nat.le_refl _) (by omega)

end Tracks
end Tracing
end Treewalk
