import Treewalk.Value
import Treewalk.Failure
import Treewalk.Files
import Treewalk.Reporter
import Treewalk.CompiledUnit

/-!
# The world of running programs

All objects, the interpreters and their loaders, the files, and what was written so far. An
interpreter runs the units of one module and has globals of its own; a loader finds modules and
remembers those it has loaded, by the real path of the file.
-/
namespace Treewalk

/-- What was written, and whether log lines are. -/
structure Console where
  out : String := ""
  err : String := ""
  verbose : Bool := false
deriving Repr, Inhabited

namespace Console

/-- Writes a line of output. -/
def print (c : Console) (line : String) : Console := { c with out := c.out ++ line ++ "\n" }

/-- Writes an error text. -/
def warn (c : Console) (text : String) : Console := { c with err := c.err ++ text }

/-- Writes a log line if they are wanted. -/
def log (c : Console) (l : LogLine) : Console := if c.verbose then c.warn l.text else c

@[simp] theorem out_warn (c : Console) (text : String) : (c.warn text).out = c.out := rfl

@[simp] theorem out_log (c : Console) (l : LogLine) : (c.log l).out = c.out := by
  unfold log
  split <;> rfl

end Console

/-- A loader: where it looks, and the modules it has loaded or is loading. -/
structure Loader where
  searchPaths : List WrittenPath := []
  cache : List (RealPath × Ref .module) := []
deriving Repr, Inhabited

namespace Loader

/-- The module of a file, if it was loaded. -/
def cached? (l : Loader) (p : RealPath) : Option (Ref .module) :=
  (l.cache.find? fun e => e.1 = p).map Prod.snd

/-- Remembers the module of a file. -/
def register (l : Loader) (p : RealPath) (m : Ref .module) : Loader :=
  { l with cache := l.cache ++ [(p, m)] }

/-- Forgets the module of a file. -/
def forget (l : Loader) (p : RealPath) : Loader :=
  { l with cache := l.cache.filter fun e => e.1 ≠ p }

end Loader

/-- An interpreter between two units. -/
structure Interpreter where
  reporter : Reporter := {}
  globals : Ref .scope
  constants : List String := []
  /-- The file of the unit run last. -/
  file : Option String := none
  loader : Ref .loader
deriving Repr, Inhabited

/-- Everything that programs can change or see. -/
structure World where
  scopes : Scopes Value := {}
  functions : Arena .function Closure := {}
  classes : Arena .class ClassObject := {}
  instances : Arena .instance InstanceObject := {}
  modules : Arena .module ModuleObject := {}
  interpreters : Arena .interpreter Interpreter := {}
  loaders : Arena .loader Loader := {}
  files : FileTree := {}
  workingDirectory : RealPath := ⟨[]⟩
  console : Console := {}
  /-- What the clock shows, in seconds. -/
  now : Float := 0
deriving Inhabited

namespace World

/-! ### Interpreters and reports -/

/-- Writes a log line. -/
def log (w : World) (l : LogLine) : World := { w with console := w.console.log l }

/-- Makes a loader. -/
def addLoader (w : World) (searchPaths : List WrittenPath) : World :=
  { w with loaders := w.loaders.add { searchPaths := searchPaths } }

/-- Makes an interpreter whose globals hold nothing but the clock. The first one raises the nesting
limit. -/
def addInterpreter (w : World) (unit : String) (loader : Ref .loader) : World :=
  let w := if w.interpreters.size = 0 then w.log (.limitRaised nestingLimit) else w
  let home := w.interpreters.next
  let globals := w.scopes.next
  { w with
    scopes := (w.scopes.addChild none).define globals clockName (.clock home)
    interpreters :=
      w.interpreters.add { reporter := { unit := unit }, globals := globals, loader := loader } }

/-- Changes an interpreter. -/
def updateInterpreter (w : World) (home : Ref .interpreter) (f : Interpreter → Interpreter) :
    World :=
  { w with interpreters := w.interpreters.set home (f (w.interpreters.get home)) }

/-- Changes a loader. -/
def updateLoader (w : World) (loader : Ref .loader) (f : Loader → Loader) : World :=
  { w with loaders := w.loaders.set loader (f (w.loaders.get loader)) }

/-- Writes one notice of an interpreter's unit. -/
def publish (w : World) (home : Ref .interpreter) (notice : Notice) : World :=
  match notice with
  | .log l => w.log l
  | .error d =>
      let reporter := (w.interpreters.get home).reporter
      let w := { w with console := w.console.warn (reporter.staticText d.place d.error.message) }
      w.updateInterpreter home fun i => { i with reporter := i.reporter.noteStatic }

/-- Reports a runtime error that ended a unit. -/
def reportRuntime (w : World) (home : Ref .interpreter) (e : RuntimeError) : World :=
  let reporter := (w.interpreters.get home).reporter
  let text := reporter.runtimeText e.token.line e.cause.message
  let w := { w with console := w.console.warn text }
  w.updateInterpreter home fun i => { i with reporter := i.reporter.noteRuntime }

/-- The globals of an interpreter. -/
def globals (w : World) (home : Ref .interpreter) : Ref .scope := (w.interpreters.get home).globals

/-- Prepares a source text for an interpreter and writes what there is to report. -/
def compile (w : World) (levels : Nat) (home : Ref .interpreter) (file source : String) :
    CompiledUnit × World :=
  let i := w.interpreters.get home
  let known := (w.scopes.get i.globals).values.names
  let r := CompiledUnit.ofSource levels file source known i.constants
  (r.1, r.2.foldl (fun w notice => w.publish home notice) w)

/-! ### Classes and instances -/

/-- The nearest definition of a method in a class and its superclasses, within `fuel` classes. -/
def methodWithin? (w : World) (name : String) : Nat → Ref .class → Option Closure
  | 0, _ => none
  | fuel + 1, r =>
      let c := w.classes.get r
      match c.methods.find? name with
      | some f => some f
      | none =>
          match c.superclass with
          | some s => methodWithin? w name fuel s
          | none => none

/-- The nearest definition of a method. A superclass is always older than its subclasses. -/
def method? (w : World) (r : Ref .class) (name : String) : Option Closure :=
  w.methodWithin? name (r.index + 1) r

/-- The number of arguments that a value takes, if it can be called. -/
def arity? (w : World) : Value → Option Nat
  | .clock _ => some 0
  | .function r => some (w.functions.get r).arity
  | .class r =>
      match w.method? r "init" with
      | some f => some f.arity
      | none => some 0
  | _ => none

/-! ### Display -/

/-- A value as programs print it. -/
def display (w : World) : Value → String
  | .nil => "nil"
  | .bool b => if b then "true" else "false"
  | .number x => NumberLayout.display.write x
  | .text s => s
  | .clock _ => "<native fn>"
  | .function r => "<fn " ++ (w.functions.get r).declaration.displayName ++ ">"
  | .class r => (w.classes.get r).name
  | .instance r => (w.classes.get (w.instances.get r).classRef).name ++ " instance"
  | .module r => "<module " ++ (w.modules.get r).name ++ ">"

/-- An object as its keeper sees it. -/
def describe (w : World) : Value → String
  | .clock _ => "<NativeFunction " ++ clockName ++ ">"
  | .function r => "<UserFunction " ++ (w.functions.get r).declaration.displayName ++ ">"
  | .class r => "<LoxClass " ++ (w.classes.get r).name ++ ">"
  | .instance r => "<LoxInstance of " ++ (w.classes.get (w.instances.get r).classRef).name ++ ">"
  | .module r =>
      let m := w.modules.get r
      "<LoxModule " ++ m.name ++ " from " ++ Text.quote m.path ++ ">"
  | v => w.display v

/-! ### Finding modules -/

/-- The ending of module files. -/
def moduleSuffix : String := ".lox"

/-- The file that an import name asks for, from some directory. -/
def moduleFile (name : String) : WrittenPath :=
  let path := String.ofList (name.toList.map fun c => if c = '\\' then '/' else c)
  .ofText (if path.endsWith moduleSuffix then path else path ++ moduleSuffix)

/-- The directories in which a module is looked for: that of the importing unit's file, unless the
unit has none, then the search paths, then the working directory. -/
def moduleDirectories (w : World) (home : Ref .interpreter) : List (RealPath × List String) :=
  let i := w.interpreters.get home
  let own :=
    match i.file with
    | some f =>
        if f.startsWith "<" then []
        else [(((WrittenPath.ofText f).resolve w.workingDirectory).parent, [])]
    | none => []
  let search := (w.loaders.get i.loader).searchPaths.map fun p =>
    (p.start w.workingDirectory, p.names)
  own ++ search ++ [(w.workingDirectory, [])]

/-- Follows a path from directories in turn, up to the first file. A name too long for any file ends
the search. -/
def firstFile (files : FileTree) (names : List String) :
    List (RealPath × List String) → FileTree.Found
  | [] => .nothing
  | (directory, inside) :: others =>
      match files.find directory (inside ++ names) with
      | .nameTooLong => .nameTooLong
      | .entry place e => if e.isFile then .entry place e else firstFile files names others
      | .nothing => firstFile files names others

/-- The file of a module. -/
def findModule (w : World) (home : Ref .interpreter) (name : String) : FileTree.Found :=
  firstFile w.files (moduleFile name).names (w.moduleDirectories home)

end World
end Treewalk
