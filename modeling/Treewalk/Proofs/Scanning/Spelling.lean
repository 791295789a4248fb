import Treewalk.Proofs.Scanning.Positions

/-!
# How tokens are spelled

Which character lists are tokens, said without a scanner and without what stands around them. A
spelling is read as its token wherever nothing or a space stands behind it, and what is read in front
of any text is never shorter than a spelling that the text begins with. So the scanner always takes
the longest token, and a token can be scanned again by itself.
-/
namespace Treewalk

/-- The spellings of the kinds of tokens, with the values of strings and numbers. -/
inductive Spelling : List Char → TokenKind → Option Literal → Prop
  | single {c : Char} {kind : TokenKind} : TokenKind.single? c = some kind → Spelling [c] kind none
  | withEqual {c : Char} {withEqual without : TokenKind} :
      TokenKind.pair? c = some (withEqual, without) → Spelling [c, '='] withEqual none
  | without {c : Char} {withEqual without : TokenKind} :
      TokenKind.pair? c = some (withEqual, without) → Spelling [c] without none
  | slash : Spelling ['/'] .slash none
  /-- The first quote that no backslash escapes is the last character. -/
  | string {cs : List Char} : (StringTail.read 0 false cs).closed = true →
      (StringTail.read 0 false cs).rest = [] →
      Spelling ('\x22' :: cs) .string
        (some (.text (String.ofList (StringTail.read 0 false cs).decoded)))
  | whole {d : Char} {ds : List Char} : d.isDigit = true → (∀ e ∈ ds, e.isDigit = true) →
      Spelling (d :: ds) .number (some (.number (Piece.numberValue (d :: ds) [])))
  | fraction {d e : Char} {ds es : List Char} : d.isDigit = true → (∀ e ∈ ds, e.isDigit = true) →
      e.isDigit = true → (∀ d ∈ es, d.isDigit = true) →
      Spelling (d :: (ds ++ '.' :: e :: es)) .number
        (some (.number (Piece.numberValue (d :: ds) (e :: es))))
  | word {c : Char} {cs : List Char} : isNameStart c = true → (∀ d ∈ cs, isNamePart d = true) →
      Spelling (c :: cs) (.ofWord (String.ofList (c :: cs))) none

namespace Piece
variable {c : Char} {cs : List Char}

/-! ### The piece at a first character -/

/-- Signs are no part of names. -/
theorem signs_of_namePart (h : isNamePart c = true) :
    TokenKind.single? c = none ∧ TokenKind.pair? c = none ∧ c ≠ '/' ∧
      ¬ (c = ' ' ∨ c = '\r' ∨ c = '\t' ∨ c = '\n') ∧ c ≠ '\x22' := by
  refine ⟨?_, ?_, ?_, ?_, ?_⟩
  · unfold TokenKind.single?
    split
    all_goals first | rfl | exact absurd h (by decide)
  · unfold TokenKind.pair?
    split
    all_goals first | rfl | exact absurd h (by decide)
  · rintro rfl
    exact absurd h (by decide)
  · rintro (rfl | rfl | rfl | rfl) <;> exact absurd h (by decide)
  · rintro rfl
    exact absurd h (by decide)

theorem ofChars_digit (h : c.isDigit = true) (cs : List Char) : ofChars c cs = number c cs := by
  have hpart : isNamePart c = true := by
    unfold isNamePart
    rw [h, Bool.or_true]
  obtain ⟨hsingle, hpair, hslash, hblank, hquote⟩ := signs_of_namePart hpart
  unfold ofChars
  rw [hsingle, hpair]
  simp only [hslash, hblank, hquote, h, if_true, if_false]

theorem isDigit_of_nameStart (h : isNameStart c = true) : c.isDigit = false := by
  rw [Bool.eq_false_iff]
  intro hdigit
  have hle : c.toNat ≤ 57 :=
    UInt32.le_iff_toNat_le.mp (of_decide_eq_true (Bool.and_eq_true_iff.mp hdigit).2)
  rcases Bool.or_eq_true_iff.mp h with hletter | hunderscore
  · rcases Bool.or_eq_true_iff.mp hletter with hupper | hlower
    · have hge : 65 ≤ c.toNat := UInt32.le_iff_toNat_le.mp (of_decide_eq_true hupper).1
      omega
    · have hge : 97 ≤ c.toNat :=
        UInt32.le_iff_toNat_le.mp (of_decide_eq_true (Bool.and_eq_true_iff.mp hlower).1)
      omega
  · rw [eq_of_beq hunderscore] at hle
    exact absurd hle (by decide)

theorem ofChars_name (h : isNameStart c = true) (cs : List Char) : ofChars c cs = word c cs := by
  have hpart : isNamePart c = true := by
    unfold isNamePart
    rw [h, Bool.true_or]
  have hdigit := isDigit_of_nameStart h
  obtain ⟨hsingle, hpair, hslash, hblank, hquote⟩ := signs_of_namePart hpart
  unfold ofChars
  rw [hsingle, hpair]
  simp only [hslash, hblank, hquote, hdigit, h, if_true, if_false]
  rfl

theorem ofChars_single {kind : TokenKind} (h : TokenKind.single? c = some kind) (cs : List Char) :
    ofChars c cs = { consumed := [c], rest := cs, token := some (kind, none) } := by
  unfold ofChars
  rw [h]

theorem single_of_pair {kinds : TokenKind × TokenKind} (h : TokenKind.pair? c = some kinds) :
    TokenKind.single? c = none := by
  unfold TokenKind.pair? at h
  split at h
  all_goals first | rfl | cases h

theorem ofChars_withEqual {withEqual without : TokenKind}
    (h : TokenKind.pair? c = some (withEqual, without)) (cs : List Char) :
    ofChars c ('=' :: cs) =
      { consumed := [c, '='], rest := cs, token := some (withEqual, none) } := by
  unfold ofChars
  rw [single_of_pair h, h]
  rfl

theorem ofChars_without {withEqual without : TokenKind}
    (h : TokenKind.pair? c = some (withEqual, without)) (hcs : ∀ more, cs ≠ '=' :: more) :
    ofChars c cs = { consumed := [c], rest := cs, token := some (without, none) } := by
  unfold ofChars
  rw [single_of_pair h, h]
  dsimp only
  split
  · next more => exact absurd rfl (hcs more)
  · rfl

theorem ofChars_slash (hcs : ∀ more, cs ≠ '/' :: more) :
    ofChars '/' cs = { consumed := ['/'], rest := cs, token := some (.slash, none) } := by
  change slash '/' cs = _
  unfold slash
  split
  · next more => exact absurd rfl (hcs more)
  · rfl

/-! ### Numbers -/

/-- Behind the digits of a number there is a fraction, or there is none. -/
theorem fraction_or_whole (cs : List Char) :
    (∃ d after, cs.dropWhile Char.isDigit = '.' :: d :: after ∧ d.isDigit = true) ∨
      ∀ d after, cs.dropWhile Char.isDigit = '.' :: d :: after → d.isDigit = false := by
  by_cases h : ∃ d after, cs.dropWhile Char.isDigit = '.' :: d :: after ∧ d.isDigit = true
  · exact .inl h
  · exact .inr fun d after hcs => Bool.eq_false_iff.mpr fun hd => h ⟨d, after, hcs, hd⟩

theorem number_spelling {kind : TokenKind} {literal : Option Literal} (hc : c.isDigit = true)
    (h : (number c cs).token = some (kind, literal)) :
    Spelling (number c cs).consumed kind literal := by
  have hdigits : ∀ ds : List Char, ∀ d ∈ ds.takeWhile Char.isDigit, d.isDigit = true :=
    fun ds d hd => List.mem_takeWhile_imp hd
  rcases fraction_or_whole cs with ⟨d, after, hcs, hd⟩ | hnone
  · rw [number_fraction c hcs hd] at h ⊢
    cases h
    exact .fraction hc (hdigits cs) hd (hdigits after)
  · rw [number_whole c hnone] at h ⊢
    cases h
    exact .whole hc (hdigits cs)

/-- A number with a point that a digit stands behind. -/
theorem number_point (d : Char) {e : Char} {ds : List Char} (hds : ∀ e ∈ ds, e.isDigit = true)
    (he : e.isDigit = true) (cs : List Char) :
    number d (ds ++ '.' :: e :: cs) =
      { consumed := d :: (ds ++ '.' :: e :: cs.takeWhile Char.isDigit)
        rest := cs.dropWhile Char.isDigit
        token := some (.number, some (.number
          (numberValue (d :: ds) (e :: cs.takeWhile Char.isDigit)))) } := by
  have hpoint : (ds ++ '.' :: e :: cs).dropWhile Char.isDigit = '.' :: e :: cs :=
    List.dropWhile_append_of_pos hds
  have hwhole : (ds ++ '.' :: e :: cs).takeWhile Char.isDigit = ds :=
    (List.takeWhile_append_of_pos hds).trans (List.append_nil ds)
  rw [number_fraction d hpoint he, hwhole]
  rfl

/-- A number takes all digits in front of it. -/
theorem number_consumed (c : Char) (cs : List Char) :
    c :: cs.takeWhile Char.isDigit <+: (number c cs).consumed := by
  rcases fraction_or_whole cs with ⟨d, after, hcs, hd⟩ | hnone
  · rw [number_fraction c hcs hd]
    exact List.prefix_append ..
  · simp only [number_whole c hnone, List.prefix_rfl]

end Piece

namespace StringTail

/-- One character of a string that does not close it. -/
theorem read_cons (n : Nat) {escaped : Bool} {c : Char} (h : ¬ (escaped = false ∧ c = '\x22')) :
    ∃ (n' : Nat) (escaped' : Bool) (decoded : List Char) (faults : List (Nat × StaticError)),
      ∀ cs, read n escaped (c :: cs) =
        { consumed := c :: (read n' escaped' cs).consumed
          decoded := decoded ++ (read n' escaped' cs).decoded
          faults := faults ++ (read n' escaped' cs).faults
          closed := (read n' escaped' cs).closed
          rest := (read n' escaped' cs).rest } := by
  cases escaped with
  | false =>
      have hquote : c ≠ '\x22' := fun hc => h ⟨rfl, hc⟩
      by_cases hslash : c = '\\'
      · refine ⟨n, true, [], [], fun cs => ?_⟩
        rw [read, if_neg hquote, if_pos hslash]
        rfl
      · refine ⟨n + breaks c, false, [c], [], fun cs => ?_⟩
        rw [read, if_neg hquote, if_neg hslash]
        rfl
  | true =>
      cases he : escape? c with
      | some d =>
          refine ⟨n + breaks c, false, [d], [], fun cs => ?_⟩
          simp only [read, he]
          rfl
      | none =>
          refine ⟨n + breaks c, false, [], [(n + breaks c, .invalidEscape c)], fun cs => ?_⟩
          simp only [read, he]
          rfl

/-- A string is closed without what stands behind it. -/
theorem read_consumed {n : Nat} {escaped : Bool} {cs : List Char}
    (h : (read n escaped cs).closed = true) :
    read n escaped (read n escaped cs).consumed = { read n escaped cs with rest := [] } := by
  induction cs generalizing n escaped with
  | nil => cases escaped <;> cases h
  | cons c cs ih =>
      by_cases hcloses : escaped = false ∧ c = '\x22'
      · obtain ⟨rfl, rfl⟩ := hcloses
        rfl
      · obtain ⟨n', escaped', decoded, faults, hread⟩ := read_cons n hcloses
        rw [hread] at h ⊢
        rw [hread, ih h]

end StringTail

namespace Piece
variable {c : Char} {cs : List Char} {kind : TokenKind} {literal : Option Literal}

theorem string_spelling (h : (string '\x22' cs).token = some (kind, literal)) :
    Spelling (string '\x22' cs).consumed kind literal := by
  unfold string at h ⊢
  dsimp only at h ⊢
  cases hclosed : (StringTail.read 0 false cs).closed with
  | false =>
      rw [hclosed] at h
      cases h
  | true =>
      rw [hclosed] at h
      cases h
      rw [if_pos rfl]
      have hread := StringTail.read_consumed hclosed
      have hspelling := @Spelling.string (StringTail.read 0 false cs).consumed
        (by rw [hread]; exact hclosed) (by rw [hread])
      rw [hread] at hspelling
      exact hspelling

/-- What is read as a token is a spelling of it. -/
theorem spelling_of_token (h : (ofChars c cs).token = some (kind, literal)) :
    Spelling (ofChars c cs).consumed kind literal := by
  cases hsingle : TokenKind.single? c with
  | some kind =>
      rw [ofChars_single hsingle] at h ⊢
      cases h
      exact .single hsingle
  | none =>
      cases hpair : TokenKind.pair? c with
      | some kinds =>
          by_cases hcs : ∃ more, cs = '=' :: more
          · obtain ⟨more, rfl⟩ := hcs
            rw [ofChars_withEqual hpair] at h ⊢
            cases h
            exact .withEqual hpair
          · rw [ofChars_without hpair fun more hmore => hcs ⟨more, hmore⟩] at h ⊢
            cases h
            exact .without hpair
      | none =>
          by_cases hslash : c = '/'
          · subst hslash
            by_cases hcs : ∃ more, cs = '/' :: more
            · obtain ⟨more, rfl⟩ := hcs
              cases h
            · rw [ofChars_slash fun more hmore => hcs ⟨more, hmore⟩] at h ⊢
              cases h
              exact .slash
          unfold ofChars at h ⊢
          simp only [hsingle, hpair] at h ⊢
          rw [if_neg hslash] at h ⊢
          by_cases hblank : c = ' ' ∨ c = '\r' ∨ c = '\t' ∨ c = '\n'
          · rw [if_pos hblank] at h
            cases h
          rw [if_neg hblank] at h ⊢
          by_cases hquote : c = '\x22'
          · rw [if_pos hquote] at h ⊢
            subst hquote
            exact string_spelling h
          rw [if_neg hquote] at h ⊢
          by_cases hdigit : c.isDigit = true
          · rw [if_pos hdigit] at h ⊢
            exact number_spelling hdigit h
          rw [if_neg hdigit] at h ⊢
          by_cases hname : isNameStart c = true
          · rw [if_pos hname] at h ⊢
            cases h
            exact .word hname fun d hd => List.mem_takeWhile_imp hd
          · rw [if_neg hname] at h
            cases h

end Piece

/-- Nothing or a space stands next. -/
def Parted (rest : List Char) : Prop := rest = [] ∨ ∃ more, rest = ' ' :: more

namespace Parted
variable {rest : List Char}

theorem ne_cons (h : Parted rest) {c : Char} (hc : c ≠ ' ') (more : List Char) : rest ≠ c :: more := by
  rintro rfl
  rcases h with h | ⟨more', h⟩
  · cases h
  · exact hc (List.cons.inj h).1

theorem dropWhile (h : Parted rest) {p : Char → Bool} (hp : p ' ' = false) : rest.dropWhile p = rest := by
  rcases h with rfl | ⟨more, rfl⟩
  · rfl
  · rw [List.dropWhile_cons, hp, if_neg Bool.false_ne_true]

theorem takeWhile (h : Parted rest) {p : Char → Bool} (hp : p ' ' = false) : rest.takeWhile p = [] := by
  rcases h with rfl | ⟨more, rfl⟩
  · rfl
  · rw [List.takeWhile_cons, hp, if_neg Bool.false_ne_true]

end Parted

namespace Spelling
variable {w rest : List Char} {kind : TokenKind} {literal : Option Literal}

/-- The beginning of a text is read as the given token. -/
def ReadIn (w rest : List Char) (kind : TokenKind) (literal : Option Literal) : Prop :=
  ∃ c ws faults, w = c :: ws ∧ Piece.ofChars c (ws ++ rest) = ⟨w, rest, some (kind, literal), faults⟩

/-- A spelling is read as its token if nothing or a space stands behind it. -/
theorem read (h : Spelling w kind literal) (hrest : Parted rest) : ReadIn w rest kind literal := by
  cases h with
  | @single c kind hc => exact ⟨c, [], [], rfl, Piece.ofChars_single hc rest⟩
  | @withEqual c _ _ hc => exact ⟨c, ['='], [], rfl, Piece.ofChars_withEqual hc rest⟩
  | @without c _ _ hc =>
      exact ⟨c, [], [], rfl, Piece.ofChars_without hc (hrest.ne_cons (by decide))⟩
  | slash => exact ⟨'/', [], [], rfl, Piece.ofChars_slash (hrest.ne_cons (by decide))⟩
  | @string cs hclosed hall =>
      refine ⟨'\x22', cs, (StringTail.read 0 false cs).faults, rfl, ?_⟩
      have hconsumed := StringTail.consumed_append_rest 0 false cs
      rw [hall, List.append_nil] at hconsumed
      change Piece.string '\x22' (cs ++ rest) = _
      unfold Piece.string
      rw [StringTail.read_append rest hclosed]
      simp only [hclosed, if_true, hall, List.nil_append, hconsumed]
  | @whole d ds hd hds =>
      refine ⟨d, ds, [], rfl, ?_⟩
      have hdrop : (ds ++ rest).dropWhile Char.isDigit = rest := by
        rw [List.dropWhile_append_of_pos hds, hrest.dropWhile rfl]
      rw [Piece.ofChars_digit hd, Piece.number_whole d, hdrop, List.takeWhile_append_of_pos hds,
        hrest.takeWhile rfl, List.append_nil]
      intro e after he
      rw [hdrop] at he
      exact absurd he (hrest.ne_cons (by decide) _)
  | @fraction d e ds es hd hds he hes =>
      refine ⟨d, ds ++ '.' :: e :: es, [], rfl, ?_⟩
      rw [List.append_assoc, List.cons_append, List.cons_append, Piece.ofChars_digit hd,
        Piece.number_point d hds he, List.takeWhile_append_of_pos hes,
        List.dropWhile_append_of_pos hes, hrest.takeWhile rfl, hrest.dropWhile rfl, List.append_nil]
  | @word c cs hc hcs =>
      refine ⟨c, cs, [], rfl, ?_⟩
      rw [Piece.ofChars_name hc]
      unfold Piece.word
      rw [List.takeWhile_append_of_pos hcs, List.dropWhile_append_of_pos hcs, hrest.takeWhile rfl,
        hrest.dropWhile rfl, List.append_nil]

/-- What is read in front of any text is no shorter than a spelling at its beginning. -/
theorem longest {c : Char} {ws : List Char} (h : Spelling (c :: ws) kind literal) (more : List Char) :
    ws.length < (Piece.ofChars c (ws ++ more)).consumed.length := by
  have hpos (cs : List Char) : 0 < (Piece.ofChars c cs).consumed.length :=
    List.length_pos_iff.mpr (Piece.consumed_ne_nil c cs)
  cases h with
  | single hc => exact hpos _
  | withEqual hc =>
      rw [List.cons_append, Piece.ofChars_withEqual hc]
      exact Nat.lt_succ_self 1
  | without hc => exact hpos _
  | slash => exact hpos _
  | string hclosed hall =>
      have hconsumed := StringTail.consumed_append_rest 0 false ws
      rw [hall, List.append_nil] at hconsumed
      change _ < (Piece.string '\x22' (ws ++ more)).consumed.length
      unfold Piece.string
      rw [StringTail.read_append more hclosed]
      simp only [hclosed, if_true, hconsumed]
      exact Nat.lt_succ_self _
  | whole hd hds =>
      rw [Piece.ofChars_digit hd]
      have hlength := (Piece.number_consumed c (ws ++ more)).length_le
      rw [List.takeWhile_append_of_pos hds, List.length_cons, List.length_append] at hlength
      omega
  | @fraction _ e ds es hd hds he hes =>
      rw [List.append_assoc, List.cons_append, List.cons_append, Piece.ofChars_digit hd,
        Piece.number_point c hds he, List.takeWhile_append_of_pos hes]
      simp only [List.length_append, List.length_cons]
      omega
  | word hc hcs =>
      rw [Piece.ofChars_name hc]
      unfold Piece.word
      rw [List.takeWhile_append_of_pos hcs, List.length_cons, List.length_append]
      omega

end Spelling

/-! ### Texts -/

namespace TokenAt
variable {source : String} {position : Nat} {t : Token}

theorem piece (h : TokenAt source position t) : ∃ c cs rest faults,
    source.toList.drop position = c :: cs ∧
      Piece.ofChars c cs = ⟨t.lexeme.toList, rest, some (t.kind, t.literal), faults⟩ := by
  obtain ⟨pieces, c, cs, -, hdrop, hpush⟩ := h
  have htokens := congrArg Array.toList hpush
  rw [Scanner.tick_tokens, Array.toList_push] at htokens
  have hpiece := List.append_cancel_left htokens
  unfold Piece.tokens at hpiece
  split at hpiece
  · next kind literal htoken =>
      cases hpiece
      refine ⟨c, cs, (Piece.ofChars c cs).rest, (Piece.ofChars c cs).faults, hdrop, ?_⟩
      rw [String.toList_ofList, ← htoken]
  · cases hpiece

theorem spelling (h : TokenAt source position t) : Spelling t.lexeme.toList t.kind t.literal := by
  obtain ⟨c, cs, rest, faults, -, hpiece⟩ := h.piece
  have hspelling := Piece.spelling_of_token (congrArg Piece.token hpiece)
  rw [hpiece] at hspelling
  exact hspelling

end TokenAt

/-- A token of some text is spelled so. -/
def IsLexeme (w : String) : Prop := ∃ source, ∃ t ∈ (scan source).tokens, t.lexeme = w

theorem IsLexeme.spelling {w : String} (h : IsLexeme w) :
    ∃ kind literal, Spelling w.toList kind literal := by
  obtain ⟨source, t, ht, rfl⟩ := h
  obtain ⟨position, hat⟩ := mem_scan_iff.mp ht
  exact ⟨t.kind, t.literal, hat.spelling⟩

/-- A token but for its line. -/
def Token.spelled (t : Token) : TokenKind × String × Option Literal := (t.kind, t.lexeme, t.literal)

namespace Scanner
variable {s : Scanner} {rest : List Char}

/-- A spelled token, and what is scanned from behind it. -/
theorem finish_spelling {t : Token} (h : Spelling t.lexeme.toList t.kind t.literal)
    (hrest : Parted rest) (hs : s.rest = t.lexeme.toList ++ rest) :
    ∃ s' : Scanner, s.finish = s'.finish ∧ s'.rest = rest ∧
      s'.tokens.toList.map Token.spelled = s.tokens.toList.map Token.spelled ++ [t.spelled] := by
  obtain ⟨c, ws, faults, hw, hpiece⟩ := h.read hrest
  have hcons : s.rest = c :: (ws ++ rest) := by rw [hs, hw, List.cons_append]
  refine ⟨s.tick c (ws ++ rest), finish_tick hcons, ?_, ?_⟩
  · unfold tick
    rw [hpiece]
  · rw [tick_tokens, List.map_append]
    unfold Piece.tokens
    rw [hpiece]
    simp only [List.map_cons, List.map_nil, Token.spelled, String.ofList_toList]

/-- Spelled tokens with spaces between them. -/
theorem finish_spellings {ts : List Token}
    (h : ∀ t ∈ ts, Spelling t.lexeme.toList t.kind t.literal)
    (hs : s.rest = [' '].intercalate (ts.map fun t => t.lexeme.toList)) :
    s.finish.tokens.toList.map Token.spelled =
      s.tokens.toList.map Token.spelled ++ ts.map Token.spelled := by
  induction ts generalizing s with
  | nil =>
      rw [finish_done hs, List.map_nil, List.append_nil]
  | cons t ts ih =>
      have ht := h t List.mem_cons_self
      have hts : ∀ u ∈ ts, Spelling u.lexeme.toList u.kind u.literal :=
        fun u hu => h u (List.mem_cons_of_mem t hu)
      -- Behind the last token there is nothing, behind the others a space, which makes no token.
      cases ts with
      | nil =>
          have hs' : s.rest = t.lexeme.toList ++ [] := by
            rw [hs, List.append_nil]
            exact List.intercalate_singleton
          obtain ⟨s', hfinish, hrest, htokens⟩ := finish_spelling ht (.inl rfl) hs'
          rw [hfinish, finish_done hrest, htokens]
          rfl
      | cons u ts =>
          have hs' : s.rest = t.lexeme.toList ++
              ' ' :: [' '].intercalate ((u :: ts).map fun t => t.lexeme.toList) := by
            rw [hs, List.map_cons, List.map_cons, List.intercalate_cons_cons, List.append_assoc]
            rfl
          obtain ⟨s', hfinish, hrest, htokens⟩ := finish_spelling ht (.inr ⟨_, rfl⟩) hs'
          have hspace : ∀ cs, (s'.tick ' ' cs).tokens = s'.tokens := fun _ => rfl
          rw [hfinish, finish_tick hrest, ih hts rfl, hspace, htokens, List.append_assoc]
          rfl

end Scanner

/-- What is scanned of spelled tokens with spaces between them. -/
theorem scan_spellings {ts : List Token}
    (h : ∀ t ∈ ts, Spelling t.lexeme.toList t.kind t.literal) :
    (scan (" ".intercalate (ts.map Token.lexeme))).tokens.map Token.spelled =
      ts.map Token.spelled := by
  have hs : (Scanner.start (" ".intercalate (ts.map Token.lexeme))).rest =
      [' '].intercalate (ts.map fun t => t.lexeme.toList) := by
    rw [Scanner.start, String.toList_intercalate, List.map_map]
    rfl
  exact Scanner.finish_spellings h hs

/-- A longer spelling in front of the same text would have been read. -/
theorem TokenAt.longest {source w : String} {position : Nat} {t : Token}
    (h : TokenAt source position t) (hw : w.toList <+: source.toList.drop position)
    (hlexeme : IsLexeme w) : w.length ≤ t.lexeme.length := by
  obtain ⟨c, cs, rest, faults, hdrop, hpiece⟩ := h.piece
  obtain ⟨kind, literal, hspelling⟩ := hlexeme.spelling
  obtain ⟨d, ws, -, hd, -⟩ := hspelling.read (.inl rfl)
  obtain ⟨more, hmore⟩ := hw
  rw [hdrop, hd, List.cons_append] at hmore
  obtain ⟨rfl, rfl⟩ := List.cons.inj hmore
  rw [hd] at hspelling
  have hlonger := hspelling.longest more
  rw [hpiece, String.length_toList] at hlonger
  rw [← String.length_toList, hd]
  exact hlonger

/-- Tokens are as long as can be and stand by themselves. The tokens of a text are those at its
positions. None of the prefixes of the text from there on that are longer is a lexeme, and the lexeme
alone is scanned as one token, the same but for its line. So the lexemes of a text are scanned again
as its tokens if spaces stand between them. -/
theorem tokens_longest (source : String) :
    (∀ t, t ∈ (scan source).tokens ↔ ∃ position, TokenAt source position t) ∧
    (∀ position t, TokenAt source position t →
      t.lexeme.toList <+: source.toList.drop position ∧
      (∀ w : String, w.toList <+: source.toList.drop position → t.lexeme.length < w.length →
        ¬ IsLexeme w) ∧
      ∃ t', (scan t.lexeme).tokens = [t'] ∧ t'.kind = t.kind ∧ t'.lexeme = t.lexeme ∧
        t'.literal = t.literal) ∧
    (scan (" ".intercalate ((scan source).tokens.map Token.lexeme))).tokens.map Token.spelled =
      (scan source).tokens.map Token.spelled := by
  refine ⟨fun t => mem_scan_iff, fun position t h => ⟨?_, ?_, ?_⟩, scan_spellings fun t ht => ?_⟩
  · obtain ⟨c, cs, rest, faults, hdrop, hpiece⟩ := h.piece
    have hparts := Piece.consumed_append_rest c cs
    rw [hpiece] at hparts
    rw [hdrop]
    exact ⟨rest, hparts⟩
  · intro w hw hlonger hlexeme
    exact absurd (h.longest hw hlexeme) (Nat.not_le.mpr hlonger)
  · have hspelled : ∀ u ∈ [t], Spelling u.lexeme.toList u.kind u.literal :=
      fun u hu => List.mem_singleton.mp hu ▸ h.spelling
    obtain ⟨t', htokens, ht'⟩ := List.map_eq_singleton_iff.mp (scan_spellings hspelled)
    exact ⟨t', htokens, congrArg (·.1) ht', congrArg (·.2.1) ht', congrArg (·.2.2) ht'⟩
  · obtain ⟨position, hat⟩ := mem_scan_iff.mp ht
    exact hat.spelling

/-- Behind `>=`, a second `=` starts a token of its own. -/
theorem tokens_longest_comparison :
    TokenAt "a>==b" 1 ⟨.greaterEqual, ">=", none, 1⟩ ∧
    ">==".toList <+: "a>==b".toList.drop 1 ∧ ">=".length < ">==".length ∧ ¬ IsLexeme ">==" ∧
    ∃ t', (scan ">=").tokens = [t'] ∧ t'.kind = .greaterEqual ∧ t'.lexeme = ">=" ∧
      t'.literal = none := by
  have hat : TokenAt "a>==b" 1 ⟨.greaterEqual, ">=", none, 1⟩ :=
    ⟨1, '>', ['=', '=', 'b'], rfl, rfl, rfl⟩
  have hprefix : ">==".toList <+: "a>==b".toList.drop 1 := ⟨['b'], rfl⟩
  have hlonger : ">=".length < ">==".length := by decide
  obtain ⟨-, hlongest, halone⟩ := (tokens_longest "a>==b").2.1 1 _ hat
  exact ⟨hat, hprefix, hlonger, hlongest ">==" hprefix hlonger, halone⟩

end Treewalk
