import Treewalk.Proofs.Scanning.Positions

/-!
# String literals

A string literal is written as a quote, items, and a quote. An item is a character that stands for
itself, which may be any but the quote and the backslash, or an escape. Whatever stands behind the
closing quote, what is read is the literal, and every string has one.
-/
namespace Treewalk

/-- What a backslash can stand in front of. -/
inductive Escape
  | lineFeed | carriageReturn | tab | backspace | apostrophe | quote | backslash
deriving DecidableEq, Repr

namespace Escape

/-- The character behind the backslash. -/
def letter : Escape → Char
  | lineFeed => 'n'
  | carriageReturn => 'r'
  | tab => 't'
  | backspace => 'b'
  | apostrophe => '\x27'
  | quote => '\x22'
  | backslash => '\\'

/-- The character that is meant. -/
def value : Escape → Char
  | lineFeed => '\n'
  | carriageReturn => '\r'
  | tab => '\t'
  | backspace => '\x08'
  | apostrophe => '\x27'
  | quote => '\x22'
  | backslash => '\\'

/-- The scanner knows these escapes and no others. -/
theorem escape?_eq_some_iff {c d : Char} :
    escape? c = some d ↔ ∃ e : Escape, e.letter = c ∧ e.value = d := by
  constructor
  · intro h
    unfold escape? at h
    split at h <;> cases h
    · exact ⟨lineFeed, rfl, rfl⟩
    · exact ⟨carriageReturn, rfl, rfl⟩
    · exact ⟨tab, rfl, rfl⟩
    · exact ⟨backspace, rfl, rfl⟩
    · exact ⟨apostrophe, rfl, rfl⟩
    · exact ⟨quote, rfl, rfl⟩
    · exact ⟨backslash, rfl, rfl⟩
  · rintro ⟨e, rfl, rfl⟩
    cases e <;> rfl

theorem escape?_letter (e : Escape) : escape? e.letter = some e.value :=
  escape?_eq_some_iff.mpr ⟨e, rfl, rfl⟩

end Escape

/-- What stands between the quotes of a string literal. -/
inductive StringItem
  | raw (c : Char) (hquote : c ≠ '\x22') (hbackslash : c ≠ '\\')
  | escape (e : Escape)

namespace StringItem

/-- How an item is written. -/
def chars : StringItem → List Char
  | raw c _ _ => [c]
  | escape e => ['\\', e.letter]

/-- The character that an item stands for. -/
def value : StringItem → Char
  | raw c _ _ => c
  | escape e => e.value

/-- The items between quotes. -/
def literal (items : List StringItem) : String :=
  String.ofList ('\x22' :: (items.flatMap chars ++ ['\x22']))

theorem toList_literal (items : List StringItem) :
    (literal items).toList = '\x22' :: (items.flatMap chars ++ ['\x22']) := String.toList_ofList

/-- The string that the items stand for. -/
def text (items : List StringItem) : String := String.ofList (items.map value)

/-- An item for a character. -/
def ofChar (c : Char) : StringItem :=
  if hquote : c = '\x22' then .escape .quote
  else if hbackslash : c = '\\' then .escape .backslash
  else .raw c hquote hbackslash

@[simp] theorem value_ofChar (c : Char) : (ofChar c).value = c := by
  unfold ofChar
  split
  · next h => exact h.symm
  · split
    · next h => exact h.symm
    · rfl

theorem text_ofChars (s : String) : text (s.toList.map ofChar) = s := by
  have hvalues : s.toList.map (value ∘ ofChar) = s.toList :=
    (List.map_congr_left fun c _ => value_ofChar c).trans (List.map_id _)
  rw [text, List.map_map, hvalues]
  exact String.ofList_toList

/-- Items are read up to the quote behind them, each as the character that it stands for. -/
theorem read_items (n : Nat) (items : List StringItem) (rest : List Char) :
    StringTail.read n false (items.flatMap chars ++ '\x22' :: rest) =
      { consumed := items.flatMap chars ++ ['\x22']
        decoded := items.map value
        closed := true
        rest := rest } := by
  induction items generalizing n with
  | nil => rfl
  | cons item items ih =>
      cases item with
      | raw c hquote hbackslash =>
          change StringTail.read n false (c :: (items.flatMap chars ++ '\x22' :: rest)) = _
          rw [StringTail.read, if_neg hquote, if_neg hbackslash, ih]
          rfl
      | escape e =>
          change StringTail.read n false ('\\' :: e.letter :: (items.flatMap chars ++ '\x22' :: rest)) = _
          rw [StringTail.read, if_neg (by decide), if_pos rfl, StringTail.read]
          simp only [e.escape?_letter, ih]
          rfl

theorem piece_literal (items : List StringItem) (rest : List Char) :
    Piece.ofChars '\x22' (items.flatMap chars ++ '\x22' :: rest) =
      { consumed := '\x22' :: (items.flatMap chars ++ ['\x22'])
        rest := rest
        token := some (.string, some (.text (text items))) } := by
  change Piece.string '\x22' _ = _
  unfold Piece.string
  rw [read_items]
  rfl

/-- The token of a literal that begins on the first line. -/
def token (items : List StringItem) : Token :=
  ⟨.string, literal items, some (.text (text items)), 1 + (literal items).toList.count '\n'⟩

/-- One tick reads a literal, and no more. -/
theorem tick_literal (items : List StringItem) (rest : String) :
    (Scanner.start (literal items ++ rest)).tick '\x22' (items.flatMap chars ++ '\x22' :: rest.toList) =
      (Scanner.start rest).behind ((literal items).toList.count '\n') #[token items] #[] := by
  unfold Scanner.tick
  rw [piece_literal, token, toList_literal]
  simp [Scanner.behind, Scanner.start, literal]

/-- A literal and what stands behind it. -/
theorem scan_append (items : List StringItem) (rest : String) :
    let lines := (literal items).toList.count '\n'
    scan (literal items ++ rest) =
      ⟨token items :: (scan rest).tokens.map (Token.down lines), (scan rest).endLine + lines,
        (scan rest).faults.map (Diagnostic.down lines)⟩ := by
  have hrest : (Scanner.start (literal items ++ rest)).rest =
      '\x22' :: (items.flatMap chars ++ '\x22' :: rest.toList) := by
    rw [Scanner.start, String.toList_append, toList_literal, List.cons_append, List.append_assoc]
    rfl
  rw [Scanner.scan_eq_finish, Scanner.finish_tick hrest, tick_literal, Scanner.finish_behind,
    Scanner.scan_eq_finish rest]
  simp [Scanner.behind]

end StringItem

/-- A string literal is read as the string that its items stand for, with nothing reported, and what
stands behind it is scanned as if it stood alone, some lines further up. Every string is the value of
a literal. -/
theorem scan_literal :
    (∀ (items : List StringItem) (rest : String),
      let literal := StringItem.literal items
      let lines := literal.toList.count '\n'
      scan (literal ++ rest) =
        { tokens := ⟨.string, literal, some (.text (StringItem.text items)), 1 + lines⟩ ::
            (scan rest).tokens.map (Token.down lines)
          endLine := (scan rest).endLine + lines
          faults := (scan rest).faults.map (Diagnostic.down lines) }) ∧
    ∀ text : String, ∃ (literal : String) (line : Nat),
      scan literal = ⟨[⟨.string, literal, some (.text text), line⟩], line, []⟩ := by
  refine ⟨StringItem.scan_append, fun text => ?_⟩
  let items := text.toList.map StringItem.ofChar
  have h := StringItem.scan_append items ""
  rw [String.append_empty] at h
  refine ⟨StringItem.literal items, 1 + (StringItem.literal items).toList.count '\n', ?_⟩
  rw [h, StringItem.token, StringItem.text_ofChars]
  rfl

end Treewalk
