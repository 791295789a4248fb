/-!
# Text files and their lines

A text file holds UTF-8, and each of its three line ends reads as one line feed. `lines` cuts a
text after every line feed and keeps the line feeds, so the pieces concatenate to the text. `pieces`
cuts it at separators and leaves these out.
-/
namespace Treewalk.Text

/-- A carriage return, alone or before a line feed, becomes a line feed. -/
def unifyLineEnds : List Char → List Char
  | [] => []
  | '\r' :: '\n' :: rest => '\n' :: unifyLineEnds rest
  | '\r' :: rest => '\n' :: unifyLineEnds rest
  | c :: rest => c :: unifyLineEnds rest

/-- A text with line feeds for line ends. -/
def withLineFeeds (s : String) : String := String.ofList (unifyLineEnds s.toList)

/-- The text of a file, unless its bytes are not UTF-8. -/
def decode? (bytes : ByteArray) : Option String := (String.fromUTF8? bytes).map withLineFeeds

/-- Cuts after every line feed; `line` holds the characters of the current line, last one first. -/
def cutLines (line : List Char) : List Char → List (List Char)
  | [] => if line.isEmpty then [] else [line.reverse]
  | '\n' :: rest => ('\n' :: line).reverse :: cutLines [] rest
  | c :: rest => cutLines (c :: line) rest

/-- The lines of a text, each with its line feed; only the last one may lack it. -/
def lines (text : String) : List String := (cutLines [] text.toList).map String.ofList

/-- The pieces of a text between separators. -/
def pieces (separator : Char) (text : String) : List String :=
  (text.toList.splitOn separator).map String.ofList

theorem cutLines_flatten (line cs : List Char) :
    (cutLines line cs).flatten = line.reverse ++ cs := by
  fun_induction cutLines line cs with
  | case1 line h => simp_all
  | case2 => simp
  | case3 line rest ih => simp [ih]
  | case4 line c rest h ih => simp [ih]

end Treewalk.Text
