import Treewalk.Diagnostic

/-!
# Scanning

Source text is cut into pieces from left to right: blanks, comments, tokens, and what is neither.
`Piece.ofChars` cuts off one piece and looks at nothing but the characters from there on;
`Scanner.tick` records its token and its faults and counts its lines. Faults never stop the scan.
-/
namespace Treewalk

/-- A letter of a name. -/
def isNameStart (c : Char) : Bool := c.isAlpha || c == '_'

/-- A later character of a name. -/
def isNamePart (c : Char) : Bool := isNameStart c || c.isDigit

/-- The character that stands for itself after a backslash, or the control it names. -/
def escape? : Char → Option Char
  | 'n' => some '\n'
  | 'r' => some '\r'
  | 't' => some '\t'
  | 'b' => some '\x08'
  | '\x27' => some '\x27'
  | '\x22' => some '\x22'
  | '\\' => some '\\'
  | _ => none

/-- The inside of a string and its closing quote, if there is one. -/
structure StringTail where
  consumed : List Char := []
  decoded : List Char := []
  /-- Escapes that name nothing, each with the line breaks up to it. -/
  faults : List (Nat × StaticError) := []
  closed : Bool := false
  rest : List Char := []
deriving Repr

namespace StringTail

/-- One for a line break, else nothing. -/
def breaks (c : Char) : Nat := if c = '\n' then 1 else 0

/-- Reads up to the first quote that no backslash escapes; `n` counts the line breaks so far and
`escaped` says whether a backslash escapes the next character. -/
def read (n : Nat) : Bool → List Char → StringTail
  | _, [] => {}
  | false, c :: cs =>
      if c = '\x22' then { consumed := [c], closed := true, rest := cs }
      else if c = '\\' then
        let t := read n true cs
        { t with consumed := c :: t.consumed }
      else
        let t := read (n + breaks c) false cs
        { t with consumed := c :: t.consumed, decoded := c :: t.decoded }
  | true, c :: cs =>
      let t := read (n + breaks c) false cs
      match escape? c with
      | some d => { t with consumed := c :: t.consumed, decoded := d :: t.decoded }
      | none =>
          { t with
            consumed := c :: t.consumed
            faults := (n + breaks c, .invalidEscape c) :: t.faults }

end StringTail

/-- What the scanner cuts off the source at one position. -/
structure Piece where
  consumed : List Char
  rest : List Char
  token : Option (TokenKind × Option Literal) := none
  /-- What is wrong with the piece, each with the line breaks up to it. -/
  faults : List (Nat × StaticError) := []
deriving Repr

namespace Piece

/-- The value of a number: digits, and perhaps a point and more digits. -/
def numberValue (whole fraction : List Char) : Float :=
  let digit (n : Nat) (c : Char) : Nat := 10 * n + (c.toNat - '0'.toNat)
  Float.ofScientific ((whole ++ fraction).foldl digit 0) Bool.true fraction.length

/-- A number that starts with the digit `c`. A point belongs to it only before a digit. -/
def number (c : Char) (cs : List Char) : Piece :=
  let whole := c :: cs.takeWhile Char.isDigit
  match cs.dropWhile Char.isDigit with
  | '.' :: d :: after =>
      if d.isDigit then
        let fraction := d :: after.takeWhile Char.isDigit
        { consumed := whole ++ '.' :: fraction
          rest := after.dropWhile Char.isDigit
          token := some (.number, some (.number (numberValue whole fraction))) }
      else
        { consumed := whole
          rest := '.' :: d :: after
          token := some (.number, some (.number (numberValue whole []))) }
  | rest =>
      { consumed := whole
        rest := rest
        token := some (.number, some (.number (numberValue whole []))) }

/-- A keyword or an identifier that starts with `c`. -/
def word (c : Char) (cs : List Char) : Piece :=
  let letters := c :: cs.takeWhile isNamePart
  { consumed := letters
    rest := cs.dropWhile isNamePart
    token := some (.ofWord (String.ofList letters), none) }

/-- A string after its opening quote `c`. -/
def string (c : Char) (cs : List Char) : Piece :=
  let t := StringTail.read 0 Bool.false cs
  let consumed := c :: t.consumed
  if t.closed then
    { consumed := consumed
      rest := t.rest
      token := some (.string, some (.text (String.ofList t.decoded)))
      faults := t.faults }
  else
    { consumed := consumed
      rest := t.rest
      faults := t.faults ++ [(consumed.count '\n', .unterminatedString)] }

/-- A slash, or a comment up to the end of the line. -/
def slash (c : Char) : List Char → Piece
  | '/' :: cs =>
      { consumed := c :: '/' :: cs.takeWhile (· ≠ '\n')
        rest := cs.dropWhile (· ≠ '\n') }
  | cs => { consumed := [c], rest := cs, token := some (.slash, none) }

/-- The piece at the front of `c :: cs`. -/
def ofChars (c : Char) (cs : List Char) : Piece :=
  match TokenKind.single? c, TokenKind.pair? c with
  | some kind, _ => { consumed := [c], rest := cs, token := some (kind, none) }
  | none, some (withEqual, without) =>
      match cs with
      | '=' :: rest => { consumed := [c, '='], rest := rest, token := some (withEqual, none) }
      | _ => { consumed := [c], rest := cs, token := some (without, none) }
  | none, none =>
      if c = '/' then slash c cs
      else if c = ' ' ∨ c = '\r' ∨ c = '\t' ∨ c = '\n' then { consumed := [c], rest := cs }
      else if c = '\x22' then string c cs
      else if c.isDigit then number c cs
      else if isNameStart c then word c cs
      else { consumed := [c], rest := cs, faults := [(0, .unexpectedCharacter c)] }

end Piece

/-- The scanner between two pieces. -/
structure Scanner where
  rest : List Char
  line : Nat := 1
  tokens : Array Token := #[]
  faults : Array Diagnostic := #[]
deriving Repr

namespace Scanner

/-- Records the piece at the front of `c :: cs`. A token is on the line on which it ends. -/
def tick (s : Scanner) (c : Char) (cs : List Char) : Scanner :=
  let p := Piece.ofChars c cs
  let line := s.line + p.consumed.count '\n'
  { rest := p.rest
    line := line
    tokens :=
      match p.token with
      | some (kind, literal) => s.tokens.push ⟨kind, String.ofList p.consumed, literal, line⟩
      | none => s.tokens
    faults := s.faults ++ p.faults.map fun (n, error) => Diagnostic.mk (.line (s.line + n : Nat)) error }

/-- Scans to the end; every tick takes at least one character. -/
def run : Nat → Scanner → Scanner
  | 0, s => s
  | fuel + 1, s =>
      match s.rest with
      | [] => s
      | c :: cs => run fuel (s.tick c cs)

end Scanner

/-- The tokens of a source text, the line on which it ends, and its lexical errors. -/
structure Scanned where
  tokens : List Token
  endLine : Nat
  faults : List Diagnostic
deriving Repr

/-- Scans a source text. -/
def scan (source : String) : Scanned :=
  let cs := source.toList
  let s := Scanner.run cs.length { rest := cs }
  ⟨s.tokens.toList, s.line, s.faults.toList⟩

end Treewalk
