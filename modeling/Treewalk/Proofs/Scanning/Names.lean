import Treewalk.Proofs.Pieces.Scanning
import Treewalk.Proofs.Scanning.Spelling
import Treewalk.Proofs.Scopes.Shape

/-!
# Names and signs

A name can be referred to if it is scanned as an identifier by itself: a word that is not reserved. A
token that is no name, string or number is spelled in one way only.
-/
namespace Treewalk

namespace TokenKind

/-- The spelling of all tokens of a kind, where they have the same. -/
def text? : TokenKind → Option String
  | .leftParen => some "("
  | .rightParen => some ")"
  | .leftBrace => some "\x7b"
  | .rightBrace => some "\x7d"
  | .comma => some ","
  | .dot => some "."
  | .colon => some ":"
  | .minus => some "-"
  | .plus => some "+"
  | .semicolon => some ";"
  | .slash => some "/"
  | .star => some "*"
  | .percent => some "%"
  | .bang => some "!"
  | .bangEqual => some "!="
  | .equal => some "="
  | .equalEqual => some "=="
  | .greater => some ">"
  | .greaterEqual => some ">="
  | .less => some "<"
  | .lessEqual => some "<="
  | .identifier | .string | .number => none
  | .and => some "and"
  | .as => some "as"
  | .break => some "break"
  | .class => some "class"
  | .const => some "const"
  | .continue => some "continue"
  | .define => some "def"
  | .else => some "else"
  | .false => some "false"
  | .for => some "for"
  | .fun => some "fun"
  | .if => some "if"
  | .import => some "import"
  | .lambda => some "lambda"
  | .nil => some "nil"
  | .or => some "or"
  | .print => some "print"
  | .return => some "return"
  | .super => some "super"
  | .this => some "this"
  | .true => some "true"
  | .var => some "var"
  | .while => some "while"

theorem text?_ofWord {x s : String} (h : (ofWord x).text? = some s) : s = x := by
  have hall : ∀ p ∈ keywords, p.2.text? = some p.1 := by decide
  unfold ofWord at h
  cases hkind : keywords.lookup x with
  | none =>
      rw [hkind] at h
      cases h
  | some kind =>
      rw [hkind] at h
      obtain ⟨before, after, hsplit, -⟩ := List.lookup_eq_some_iff.mp hkind
      have hx := hall (x, kind) (hsplit ▸ List.mem_append_right before List.mem_cons_self)
      exact Option.some.inj (h.symm.trans hx)

end TokenKind

/-- The tokens of a kind with one spelling have no values. -/
theorem Spelling.text {w : List Char} {kind : TokenKind} {literal : Option Literal}
    (h : Spelling w kind literal) {s : String} (hs : kind.text? = some s) :
    w = s.toList ∧ literal = none := by
  cases h with
  | single hc =>
      unfold TokenKind.single? at hc
      split at hc <;> cases hc <;> cases hs <;> exact ⟨rfl, rfl⟩
  | withEqual hc =>
      unfold TokenKind.pair? at hc
      split at hc <;> cases hc <;> cases hs <;> exact ⟨rfl, rfl⟩
  | without hc =>
      unfold TokenKind.pair? at hc
      split at hc <;> cases hc <;> cases hs <;> exact ⟨rfl, rfl⟩
  | slash =>
      cases hs
      exact ⟨rfl, rfl⟩
  | string | whole | fraction => cases hs
  | word hc hcs =>
      rw [TokenKind.text?_ofWord hs, String.toList_ofList]
      exact ⟨rfl, rfl⟩

/-- Scanned by itself a name is one token, an identifier. -/
def IsName (x : String) : Prop :=
  (scan x).faults = [] ∧
    ∃ t, (scan x).tokens = [t] ∧ t.kind = .identifier ∧ t.lexeme = x

/-- The word that a name is spelled like has no meaning of its own. -/
def Unreserved (x : String) : Prop := TokenKind.ofWord x = .identifier

/-- Only words are spelled like identifiers. -/
theorem Spelling.identifier {w : List Char} {literal : Option Literal}
    (h : Spelling w .identifier literal) :
    ∃ c cs, w = c :: cs ∧ isNameStart c = true ∧ (∀ d ∈ cs, isNamePart d = true) ∧
      Unreserved (String.ofList w) := by
  generalize hkind : TokenKind.identifier = kind at h
  cases h with
  | single hc => exact ((Piece.single?_kind hc).1 hkind.symm).elim
  | withEqual hc => exact ((Piece.pair?_kind hc).1.1 hkind.symm).elim
  | without hc => exact ((Piece.pair?_kind hc).2.1 hkind.symm).elim
  | slash | string | whole | fraction => cases hkind
  | word hc hcs => exact ⟨_, _, rfl, hc, hcs, hkind.symm⟩

theorem Spelling.literal_of_identifier {w : List Char} {literal : Option Literal}
    (h : Spelling w .identifier literal) : literal = none := by
  generalize hkind : TokenKind.identifier = kind at h
  cases h with
  | string | whole | fraction => cases hkind
  | _ => rfl

theorem isName_of_word {x : String} {c : Char} {cs : List Char} (hx : x.toList = c :: cs)
    (hc : isNameStart c = true) (hcs : ∀ d ∈ cs, isNamePart d = true) (hword : Unreserved x) :
    IsName x := by
  have htake : cs.takeWhile isNamePart = cs := List.takeWhile_eq_self_iff.mpr hcs
  have hdrop : cs.dropWhile isNamePart = [] := List.dropWhile_eq_nil_iff.mpr hcs
  have hpiece : Piece.ofChars c cs = ⟨c :: cs, [], some (.identifier, none), []⟩ := by
    rw [Piece.ofChars_name hc]
    unfold Piece.word
    dsimp only
    rw [htake, hdrop, ← hx, String.ofList_toList, hword]
  have hend : Scans (1 + (Piece.ofChars c cs).consumed.count '\n') (Piece.ofChars c cs).rest []
      (1 + (Piece.ofChars c cs).consumed.count '\n') := by
    rw [hpiece]
    exact .done
  have hscans := Scans.cut (congrArg Piece.faults hpiece) hend
  rw [hpiece, ← hx] at hscans
  have hscan := scan_eq_iff.mpr hscans
  refine ⟨congrArg Scanned.faults hscan, _, congrArg Scanned.tokens hscan, rfl, ?_⟩
  exact String.ofList_toList

/-- The names that can be referred to: words that are not reserved. -/
theorem isName_iff {x : String} : IsName x ↔
    ∃ c cs, x.toList = c :: cs ∧ isNameStart c = true ∧ (∀ d ∈ cs, isNamePart d = true) ∧
      Unreserved x := by
  constructor
  · rintro ⟨-, t, htokens, hkind, rfl⟩
    obtain ⟨position, hat⟩ := mem_scan_iff.mp (htokens ▸ List.mem_singleton_self t)
    have hspelling := hat.spelling
    rw [hkind] at hspelling
    obtain ⟨c, cs, hw, hc, hcs, hword⟩ := hspelling.identifier
    rw [String.ofList_toList] at hword
    exact ⟨c, cs, hw, hc, hcs, hword⟩
  · rintro ⟨c, cs, hx, hc, hcs, hword⟩
    exact isName_of_word hx hc hcs hword

theorem isNamePart_of_start {c : Char} (h : isNameStart c = true) : isNamePart c = true := by
  unfold isNamePart
  rw [h, Bool.true_or]

/-- A text of letters, digits and underscores can be referred to unless it begins with a digit or is
reserved. -/
theorem isName_iff_of_parts {x : String} {c : Char} {cs : List Char} (hx : x.toList = c :: cs)
    (hcs : ∀ d ∈ c :: cs, isNamePart d = true) :
    IsName x ↔ ¬(c.isDigit = true ∨ ¬Unreserved x) := by
  rw [isName_iff, not_or, not_not]
  constructor
  · rintro ⟨d, ds, hds, hd, -, hword⟩
    obtain ⟨rfl, rfl⟩ := List.cons.inj (hx.symm.trans hds)
    exact ⟨Bool.eq_false_iff.mp (Piece.isDigit_of_nameStart hd), hword⟩
  · rintro ⟨hdigit, hword⟩
    have hstart : isNameStart c = true :=
      (Bool.or_eq_true_iff.mp (hcs c List.mem_cons_self)).resolve_right hdigit
    exact ⟨c, cs, hx, hstart, fun d hd => hcs d (List.mem_cons_of_mem c hd), hword⟩

/-- The identifiers of a text can be referred to. -/
theorem isName_of_mem_scan {source : String} {t : Token} (ht : t ∈ (scan source).tokens)
    (hkind : t.kind = .identifier) : IsName t.lexeme := by
  obtain ⟨position, hat⟩ := mem_scan_iff.mp ht
  have hspelling := hat.spelling
  rw [hkind] at hspelling
  obtain ⟨c, cs, hw, hc, hcs, hword⟩ := hspelling.identifier
  rw [String.ofList_toList] at hword
  exact isName_of_word hw hc hcs hword

/-- A token that is no string has no text for a value. -/
theorem Spelling.literal_of_ne_string {w : List Char} {kind : TokenKind} {literal : Option Literal}
    (h : Spelling w kind literal) (hkind : kind ≠ .string) (s : String) :
    literal ≠ some (.text s) := by
  cases h with
  | string => exact (hkind rfl).elim
  | _ => exact nofun

end Treewalk
