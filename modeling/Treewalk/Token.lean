import Treewalk.Number.Layout

/-!
# Tokens

Kinds of tokens with their names and spellings, and tokens with the line they end on. The end of
the input is no token: a token list comes with the line on which the input ends.
-/
namespace Treewalk

/-- What a token is. -/
inductive TokenKind
  | leftParen | rightParen | leftBrace | rightBrace
  | comma | dot | colon | minus | plus | semicolon | slash | star | percent
  | bang | bangEqual | equal | equalEqual | greater | greaterEqual | less | lessEqual
  | identifier | string | number
  | and | as | break | «class» | const | continue | define | else | false | for | fun | if | import
  | lambda | nil | or | print | return | super | this | true | var | while
deriving DecidableEq, Repr, Inhabited

namespace TokenKind

/-- The reserved words. -/
def keywords : List (String × TokenKind) :=
  [("and", .and), ("as", .as), ("break", .break), ("class", .class), ("const", .const),
   ("continue", .continue), ("def", .define), ("else", .else), ("false", .false), ("for", .for),
   ("fun", .fun), ("if", .if), ("import", .import), ("lambda", .lambda), ("nil", .nil),
   ("or", .or), ("print", .print), ("return", .return), ("super", .super), ("this", .this),
   ("true", .true), ("var", .var), ("while", .while)]

/-- The kind of a word: a keyword if it is one, else an identifier. -/
def ofWord (word : String) : TokenKind := (keywords.lookup word).getD .identifier

/-- The tokens of one character that begin no longer one. -/
def single? : Char → Option TokenKind
  | '(' => some .leftParen
  | ')' => some .rightParen
  | '\x7b' => some .leftBrace
  | '\x7d' => some .rightBrace
  | ',' => some .comma
  | '.' => some .dot
  | ':' => some .colon
  | '-' => some .minus
  | '+' => some .plus
  | ';' => some .semicolon
  | '*' => some .star
  | '%' => some .percent
  | _ => none

/-- The characters that may be followed by an equals sign: the kind with it and the kind without. -/
def pair? : Char → Option (TokenKind × TokenKind)
  | '!' => some (.bangEqual, .bang)
  | '=' => some (.equalEqual, .equal)
  | '<' => some (.lessEqual, .less)
  | '>' => some (.greaterEqual, .greater)
  | _ => none

/-- The kinds a statement can begin with, where reading resumes after a syntax error. -/
def startsStatement : TokenKind → Bool
  | .break | .class | .const | .continue | .define | .for | .fun | .if | .import | .print
  | .return | .var | .while => Bool.true
  | _ => Bool.false

/-- The name of a kind in token listings. -/
def name : TokenKind → String
  | .leftParen => "LEFT_PAREN"
  | .rightParen => "RIGHT_PAREN"
  | .leftBrace => "LEFT_BRACE"
  | .rightBrace => "RIGHT_BRACE"
  | .comma => "COMMA"
  | .dot => "DOT"
  | .colon => "COLON"
  | .minus => "MINUS"
  | .plus => "PLUS"
  | .semicolon => "SEMICOLON"
  | .slash => "SLASH"
  | .star => "STAR"
  | .percent => "PERCENT"
  | .bang => "BANG"
  | .bangEqual => "BANG_EQUAL"
  | .equal => "EQUAL"
  | .equalEqual => "EQUAL_EQUAL"
  | .greater => "GREATER"
  | .greaterEqual => "GREATER_EQUAL"
  | .less => "LESS"
  | .lessEqual => "LESS_EQUAL"
  | .identifier => "IDENTIFIER"
  | .string => "STRING"
  | .number => "NUMBER"
  | .and => "AND"
  | .as => "AS"
  | .break => "BREAK"
  | .class => "CLASS"
  | .const => "CONST"
  | .continue => "CONTINUE"
  | .define => "DEF"
  | .else => "ELSE"
  | .false => "FALSE"
  | .for => "FOR"
  | .fun => "FUN"
  | .if => "IF"
  | .import => "IMPORT"
  | .lambda => "LAMBDA"
  | .nil => "NIL"
  | .or => "OR"
  | .print => "PRINT"
  | .return => "RETURN"
  | .super => "SUPER"
  | .this => "THIS"
  | .true => "TRUE"
  | .var => "VAR"
  | .while => "WHILE"

/-- The name of the end of the input in token listings. -/
def endName : String := "EOF"

end TokenKind

/-- A value written in source text. -/
inductive Literal
  | nil
  | bool (b : Bool)
  | number (x : Float)
  | text (s : String)
deriving Repr, Inhabited

/-- A token with its spelling, the value of a string or number, and the line it ends on. -/
structure Token where
  kind : TokenKind
  lexeme : String
  literal : Option Literal := none
  line : Nat
deriving Repr, Inhabited

namespace Token

/-- The value of a token in listings; only strings and numbers have one. -/
def literalText : Option Literal → String
  | some (.number x) => NumberLayout.outline.write x
  | some (.text s) => s
  | _ => "None"

/-- A line of a token listing. -/
def listing (kindName lexeme : String) (literal : Option Literal) : String :=
  kindName ++ " " ++ lexeme ++ " " ++ literalText literal

/-- The listing of a token. -/
def describe (t : Token) : String := listing t.kind.name t.lexeme t.literal

end Token
end Treewalk
