import Treewalk.Text.Lines

/-!
# Paths and files

Paths as written and the places they denote, and a tree of files as data. A place is the list of
names on the way to it, so that its parent is the list without its last name. Reading a path follows
it step by step: every step needs a directory to start from.
-/
namespace Treewalk

/-- A place in a file tree. -/
structure RealPath where
  names : List String
deriving DecidableEq, Repr, Inhabited

namespace RealPath

/-- The names with slashes between them. The root is the empty name. -/
def text (p : RealPath) : String :=
  if p.names = [""] then "/" else "/".intercalate p.names

/-- One step up; there is none above a root. -/
def parent (p : RealPath) : RealPath :=
  if p.names.all String.isEmpty then p else ⟨p.names.dropLast⟩

/-- One step down. -/
def child (p : RealPath) (name : String) : RealPath := ⟨p.names ++ [name]⟩

/-- A step along a written path, up for two dots. -/
def step (p : RealPath) (name : String) : RealPath :=
  if name = ".." then p.parent else p.child name

end RealPath

/-- A path as written. -/
structure WrittenPath where
  /-- What the path starts with if it does not start at the working directory: one slash, or two. -/
  root : Option String := none
  names : List String := []
deriving DecidableEq, Repr, Inhabited

namespace WrittenPath

/-- Cuts at slashes. Empty names and single dots say nothing. -/
def ofText (s : String) : WrittenPath :=
  let slashes := (s.toList.takeWhile (· = '/')).length
  { root := if slashes = 0 then none else if slashes = 2 then some "//" else some "/"
    names := (Text.pieces '/' s).filter fun n => n ≠ "" ∧ n ≠ "." }

/-- The path as text; no names at all are the single dot. -/
def text (p : WrittenPath) : String :=
  match p.root, p.names with
  | none, [] => "."
  | none, names => "/".intercalate names
  | some root, names => root ++ "/".intercalate names

/-- A path inside the directory of another one. -/
def join (p q : WrittenPath) : WrittenPath :=
  match q.root with
  | some _ => q
  | none => { p with names := p.names ++ q.names }

/-- Where the path starts. -/
def start (p : WrittenPath) (workingDirectory : RealPath) : RealPath :=
  match p.root with
  | none => workingDirectory
  | some "//" => ⟨["", ""]⟩
  | some _ => ⟨[""]⟩

/-- The place that a path denotes, whether anything is there or not. -/
def resolve (p : WrittenPath) (workingDirectory : RealPath) : RealPath :=
  p.names.foldl RealPath.step (p.start workingDirectory)

end WrittenPath

/-- What can be at a place. -/
inductive FileEntry
  | directory
  | file (bytes : ByteArray)
  /-- A file that cannot be read, with the reason. -/
  | unreadable (reason : String)

instance : Inhabited FileEntry := ⟨.directory⟩

/-- Whether an entry is a file. -/
def FileEntry.isFile : FileEntry → Bool
  | .directory => false
  | .file _ | .unreadable _ => true

/-- All directories and files. -/
structure FileTree where
  entries : List (RealPath × FileEntry) := []
deriving Inhabited

namespace FileTree

/-- What is at a place. -/
def entry? (t : FileTree) (p : RealPath) : Option FileEntry :=
  (t.entries.find? fun e => e.1 = p).map Prod.snd

/-- Puts something at a place, over what was there. -/
def put (t : FileTree) (p : RealPath) (e : FileEntry) : FileTree :=
  ⟨(p, e) :: t.entries.filter fun old => old.1 ≠ p⟩

/-- Makes directories of all places above `names`, which come after `above`. -/
def putParents (t : FileTree) (above : List String) : List String → FileTree
  | [] => t
  | name :: names =>
      let t :=
        match t.entry? ⟨above⟩ with
        | some _ => t
        | none => t.put ⟨above⟩ .directory
      putParents t (above ++ [name]) names

/-- Writes something, with the directories above it. -/
def write (t : FileTree) (p : RealPath) (e : FileEntry) : FileTree :=
  (t.putParents [] p.names).put p e

/-- Removes what is at a place and below it. -/
def remove (t : FileTree) (p : RealPath) : FileTree :=
  ⟨t.entries.filter fun e => !p.names.isPrefixOf e.1.names⟩

/-- Whether a place is a directory. -/
def isDirectory (t : FileTree) (p : RealPath) : Bool :=
  match t.entry? p with
  | some .directory => true
  | _ => false

/-- The result of following a path. -/
inductive Found
  | nothing
  | entry (place : RealPath) (e : FileEntry)
  | nameTooLong

/-- The greatest length of a name in bytes. -/
def maxName : Nat := 255

/-- The length in bytes from which on a path is refused. -/
def maxPath : Nat := 4096

/-- Follows names from a place. -/
def follow (t : FileTree) (p : RealPath) : List String → Found
  | [] =>
      match t.entry? p with
      | some e => .entry p e
      | none => .nothing
  | name :: names =>
      if !t.isDirectory p then .nothing
      else if name ≠ ".." ∧ maxName < name.utf8ByteSize then .nameTooLong
      else follow t (p.step name) names

/-- Follows the names of `written` from a directory. -/
def find (t : FileTree) (directory : RealPath) (written : List String) : Found :=
  if maxPath ≤ (RealPath.mk (directory.names ++ written)).text.utf8ByteSize then .nameTooLong
  else t.follow ⟨[]⟩ (directory.names ++ written)

end FileTree
end Treewalk
