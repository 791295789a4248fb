import Treewalk.Text.Quoted

/-!
# The command line

Options and their arguments. Long options may be cut short where that leaves one choice, an argument
may follow its option directly, and options that take none may share one dash. After a double dash
nothing is an option. Of the other words the first is the script.
-/
namespace Treewalk

/-- What a command line asks for, when it is well formed. -/
structure Options where
  script : Option String := none
  searchPaths : List String := []
  outline : Bool := false
  verbose : Bool := false
deriving DecidableEq, Repr, Inhabited

/-- The options. -/
inductive Flag
  | help | path | outline | verbose
deriving DecidableEq, Repr

namespace Flag

/-- All spellings, in the order in which choices are listed. -/
def spellings : List (String × Flag) :=
  [("-h", .help), ("--help", .help), ("-I", .path), ("--path", .path),
   ("--print-ast", .outline), ("-v", .verbose), ("--verbose", .verbose)]

/-- The flag of a full spelling. -/
def ofName? (name : String) : Option Flag := spellings.lookup name

/-- The spellings of one flag. -/
def names (f : Flag) : List String := (spellings.filter fun s => s.2 = f).map Prod.fst

/-- Whether an argument belongs to the flag. -/
def takesArgument : Flag → Bool
  | .path => true
  | .help | .outline | .verbose => false

end Flag

/-- What is wrong with a command line. -/
inductive UsageError
  | unrecognized (words : List String)
  | ambiguous (word : String) (choices : List String)
  | argumentMissing (f : Flag)
  | argumentIgnored (f : Flag) (argument : String)
deriving DecidableEq, Repr

namespace UsageError

/-- The wording of a usage error. -/
def message : UsageError → String
  | .unrecognized words => "unrecognized arguments: " ++ " ".intercalate words
  | .ambiguous word choices =>
      "ambiguous option: " ++ word ++ " could match " ++ ", ".intercalate choices
  | .argumentMissing f => "argument " ++ "/".intercalate f.names ++ ": expected one argument"
  | .argumentIgnored f argument =>
      "argument " ++ "/".intercalate f.names ++ ": ignored explicit argument " ++
        Text.quote argument

end UsageError

/-- What a word of the command line is. -/
inductive Word
  | plain (text : String)
  | doubleDash
  /-- An option, as spelled in full, perhaps with an argument attached. -/
  | flag (f : Flag) (name : String) (attached : Option String)
  | unknown (text : String)
deriving DecidableEq, Repr

namespace Word

/-- Cuts a word at its first equals sign. -/
def cutAtEquals (cs : List Char) : Option (List Char × List Char) :=
  match cs.dropWhile (· ≠ '=') with
  | [] => none
  | _ :: argument => some (cs.takeWhile (· ≠ '='), argument)

/-- Whether a word reads as a negative number, so that it is no option. -/
def isNegativeNumber : List Char → Bool
  | '-' :: cs =>
      let whole := cs.takeWhile Char.isDigit
      match cs.dropWhile Char.isDigit with
      | [] => !whole.isEmpty
      | '.' :: fraction => !fraction.isEmpty && fraction.all Char.isDigit
      | _ => false
  | _ => false

/-- The options that a word with a dash may stand for. -/
def choices (cs : List Char) : List (Flag × String × Option String) :=
  match cs with
  | '-' :: '-' :: _ =>
      let (name, argument) :=
        match cutAtEquals cs with
        | some (name, argument) => (name, some (String.ofList argument))
        | none => (cs, none)
      (Flag.spellings.filter fun s => name.isPrefixOf s.1.toList).map fun s =>
        (s.2, s.1, argument)
  | _ =>
      Flag.spellings.filterMap fun s =>
        if s.1.toList = cs.take 2 then some (s.2, s.1, some (String.ofList (cs.drop 2)))
        else if cs.isPrefixOf s.1.toList then some (s.2, s.1, none)
        else none

/-- A word that begins with a dash and is no full spelling of an option. -/
def ofDashed (text : String) : Except UsageError Word :=
  let cs := text.toList
  let attached := do
    let (name, argument) ← cutAtEquals cs
    let f ← Flag.ofName? (String.ofList name)
    return Word.flag f (String.ofList name) (some (String.ofList argument))
  match attached, choices cs with
  | some word, _ => .ok word
  | none, [(f, name, argument)] => .ok (.flag f name argument)
  | none, [] =>
      if isNegativeNumber cs ∨ ' ' ∈ cs then .ok (.plain text) else .ok (.unknown text)
  | none, several => .error (.ambiguous text (several.map fun c => c.2.1))

/-- What a word is, before any double dash. -/
def ofText (text : String) : Except UsageError Word :=
  match text.toList, Flag.ofName? text with
  | '-' :: _ :: _, some f => .ok (.flag f text none)
  | '-' :: _ :: _, none => ofDashed text
  | _, _ => .ok (.plain text)

/-- What the words of a command line are. -/
def ofTexts : List String → Except UsageError (List Word)
  | [] => .ok []
  | text :: texts =>
      if text = "--" then .ok (.doubleDash :: texts.map .plain)
      else do
        let word ← ofText text
        let words ← ofTexts texts
        return word :: words

end Word

/-- A command line half read. -/
structure CommandLine where
  options : Options := {}
  /-- Whether the script was read or is known to be missing. -/
  scriptRead : Bool := false
  helpWanted : Bool := false
  surplus : List String := []
deriving Repr, Inhabited

namespace CommandLine

/-- Takes note of flags and their arguments in order; a wish for help ends all. -/
def apply (c : CommandLine) : List (Flag × String) → CommandLine
  | [] => c
  | (f, argument) :: others =>
      match f with
      | .help => { c with helpWanted := true }
      | .path =>
          apply
            { c with
              options := { c.options with searchPaths := c.options.searchPaths ++ [argument] } }
            others
      | .outline => apply { c with options := { c.options with outline := true } } others
      | .verbose => apply { c with options := { c.options with verbose := true } } others

/-- Takes options behind one dash apart; an option with an argument takes what is left of the word,
or else the next word. The result says how many words were used. -/
def spread (f : Flag) (name : String) (next : Option Word) :
    List Char → Except UsageError (List (Flag × String) × Nat)
  | [] =>
      if f.takesArgument then
        match next with
        | some (.plain text) => .ok ([(f, text)], 1)
        | _ => .error (.argumentMissing f)
      else .ok ([(f, "")], 0)
  | c :: cs =>
      if f.takesArgument then .ok ([(f, String.ofList (c :: cs))], 0)
      else if name.startsWith "--" then .error (.argumentIgnored f (String.ofList (c :: cs)))
      else
        let other := String.ofList ['-', c]
        match Flag.ofName? other with
        | none => .error (.argumentIgnored f (String.ofList (c :: cs)))
        | some g => do
            let (found, used) ← spread g other next cs
            return ((f, "") :: found, used)

/-- An option with what is attached to it. -/
def takeFlag (f : Flag) (name : String) (attached : Option String) (next : Option Word) :
    Except UsageError (List (Flag × String) × Nat) :=
  match attached with
  | none => spread f name next []
  | some "" =>
      if f.takesArgument then .ok ([(f, "")], 0) else .error (.argumentIgnored f "")
  | some argument => spread f name next argument.toList

/-- Takes note of a word that is no option. -/
def takePlain (c : CommandLine) (text : String) : CommandLine :=
  if c.scriptRead then { c with surplus := c.surplus ++ [text] }
  else { c with scriptRead := true, options := { c.options with script := some text } }

/-- Reads words; `fuel` is their number. -/
def read (c : CommandLine) : Nat → List Word → Except UsageError CommandLine
  | 0, _ => .ok c
  | _ + 1, [] => .ok c
  | fuel + 1, word :: words =>
      if c.helpWanted then .ok c
      else
        match word with
        | .unknown text => read { c with surplus := c.surplus ++ [text] } fuel words
        | .plain text =>
            let used :=
              match c.scriptRead, words with
              | false, .doubleDash :: others => others
              | _, _ => words
            read (c.takePlain text) fuel used
        | .doubleDash =>
            if c.scriptRead then read { c with surplus := c.surplus ++ ["--"] } fuel words
            else
              match words with
              | .plain text :: others => read (c.takePlain text) fuel others
              | _ => read { c with scriptRead := true } fuel words
        | .flag f name attached => do
            let (found, used) ← takeFlag f name attached words.head?
            read (c.apply found) fuel (words.drop used)

end CommandLine

/-- What a command line asks for. -/
inductive Request
  | help
  | misuse (e : UsageError)
  | run (options : Options)
deriving DecidableEq, Repr

namespace Request

/-- Reads a command line. -/
def ofArguments (arguments : List String) : Request :=
  let read : Except UsageError CommandLine := do
    let words ← Word.ofTexts arguments
    CommandLine.read {} words.length words
  match read with
  | .error e => .misuse e
  | .ok c =>
      if c.helpWanted then .help
      else if c.surplus.isEmpty then .run c.options
      else .misuse (.unrecognized c.surplus)

/-- How the program is called. -/
def usage : String := "usage: python -m loxterp [-I DIR] [--print-ast] [-v] [script]\n"

/-- What a wish for help is answered with. -/
def helpText : String :=
  usage ++ "\npositional arguments:\n  script\n\noptions:\n" ++
    "  -h, --help          show this help message and exit\n" ++
    "  -I DIR, --path DIR  extra directory to search for imported modules\n" ++
    "  --print-ast         print the parsed syntax tree before running\n" ++
    "  -v, --verbose       enable debug logging\n"

/-- What a usage error is answered with. -/
def misuseText (e : UsageError) : String :=
  usage ++ "python -m loxterp: error: " ++ e.message ++ "\n"

end Request
end Treewalk
