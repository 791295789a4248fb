import Treewalk.Proofs.Twins.Moved
import Treewalk.Proofs.Run.Objects

/-!
# Twin worlds

Two worlds in which programs do the same, though one of them has more error output, or code some
lines further down, or an interpreter with another record of errors: all that programs can see is
the same.
-/
namespace Treewalk

namespace World

/-- One interpreter more, whose globals hold the clock. -/
def withInterpreter (w : World) (unit : String) (loader : Ref .loader) : World := { w with
  scopes := (w.scopes.addChild none).define w.scopes.next clockName (.clock w.interpreters.next)
  interpreters := w.interpreters.add
    { reporter := { unit := unit }, globals := w.scopes.next, loader := loader } }

/-- Interpreters that are added to related worlds, in which the first one is logged. -/
theorem addInterpreter_both {R S : World → World → Prop} {w w' : World} (h : R w w')
    (unit : String) (loader : Ref .loader) (hsize : w'.interpreters.size = w.interpreters.size)
    (hlog : ∀ l, R (w.log l) (w'.log l))
    (hadd : ∀ v v', R v v' → S (v.withInterpreter unit loader) (v'.withInterpreter unit loader)) :
    S (w.addInterpreter unit loader) (w'.addInterpreter unit loader) := by
  unfold addInterpreter
  rw [hsize]
  by_cases hzero : w.interpreters.size = 0
  · simp only [hzero, if_true]
    exact hadd _ _ (hlog _)
  · simp only [hzero, if_false]
    exact hadd _ _ h

end World

/-- Arenas of the same size, with related objects at the same places. -/
structure Arena.Matches {kind : RefKind} {α : Type} [Inhabited α]
    (R : Ref kind → α → α → Prop) (a a' : Arena kind α) : Prop where
  size : a'.size = a.size
  get : ∀ r, R r (a.get r) (a'.get r)

namespace Arena.Matches
variable {kind : RefKind} {α : Type} [Inhabited α] {R : Ref kind → α → α → Prop}
  {a a' : Arena kind α}

theorem refl (h : ∀ r x, R r x x) (a : Arena kind α) : a.Matches R a := ⟨rfl, fun r => h r _⟩

theorem next (h : a.Matches R a') : a'.next = a.next := congrArg Ref.mk h.size

theorem add (h : a.Matches R a') {x x' : α} (hx : R a.next x x') :
    (a.add x).Matches R (a'.add x') := by
  refine ⟨by rw [Arena.size_add, Arena.size_add, h.size], fun r => ?_⟩
  rw [Arena.get_add, Arena.get_add, h.next]
  by_cases hr : r = a.next
  · rw [if_pos hr, if_pos hr, hr]
    exact hx
  · rw [if_neg hr, if_neg hr]
    exact h.get r

theorem set (h : a.Matches R a') (r : Ref kind) {x x' : α} (hx : R r x x') :
    (a.set r x).Matches R (a'.set r x') := by
  refine ⟨by rw [Arena.size_set, Arena.size_set, h.size], fun r' => ?_⟩
  rcases Nat.lt_or_ge r.index a.size with hlt | hge
  · by_cases hr : r = r'
    · subst hr
      rw [Arena.get_set_self _ _ hlt, Arena.get_set_self _ _ (h.size ▸ hlt)]
      exact hx
    · rw [Arena.get_set_of_ne _ _ hr, Arena.get_set_of_ne _ _ hr]
      exact h.get r'
  · rw [Arena.set_of_le _ _ hge, Arena.set_of_le _ _ (h.size ▸ hge)]
    exact h.get r'

theorem eq (h : a.Matches (fun _ x x' => x' = x) a') : a' = a := by
  obtain ⟨items⟩ := a
  obtain ⟨items'⟩ := a'
  congr 1
  refine Array.ext h.size fun i hi hi' => ?_
  have hget := h.get ⟨i⟩
  unfold Arena.get at hget
  simpa only [Array.getD_eq_getD_getElem?, Array.getElem?_eq_getElem hi,
    Array.getElem?_eq_getElem hi', Option.getD_some] using hget

end Arena.Matches

/-- In what twin worlds may differ. -/
structure Likeness where
  /-- The interpreter that may differ. -/
  home : Ref .interpreter
  /-- By how many lines code may have moved. -/
  moved : Nat → Prop
  /-- The error output. -/
  errors : String → String → Prop
  interpreters : Interpreter → Interpreter → Prop
  unmoved : moved 0
  warn {e e' : String} (text : String) : errors e e' → errors (e ++ text) (e' ++ text)
  warnRuntime {e e' : String} {n : Nat} (r : Reporter) (line : Nat) (message : String) :
    moved n → errors e e' →
    errors (e ++ r.runtimeText line message) (e' ++ r.runtimeText (line + n : Nat) message)
  refl (i : Interpreter) : interpreters i i
  same {i i' : Interpreter} : interpreters i i' → i'.globals = i.globals ∧ i'.file = i.file ∧
    i'.loader = i.loader ∧ i'.reporter.unit = i.reporter.unit
  noteStatic {i i' : Interpreter} : interpreters i i' →
    interpreters { i with reporter := i.reporter.noteStatic }
      { i' with reporter := i'.reporter.noteStatic }
  noteRuntime {i i' : Interpreter} : interpreters i i' →
    interpreters { i with reporter := i.reporter.noteRuntime }
      { i' with reporter := i'.reporter.noteRuntime }
  reset {i i' : Interpreter} : interpreters i i' →
    interpreters { i with reporter := i.reporter.reset } { i' with reporter := i'.reporter.reset }
  prepare {i i' : Interpreter} (constants : List String) (file : Option String) :
    interpreters i i' →
    interpreters { i with constants := constants, file := file }
      { i' with constants := constants, file := file }

namespace Likeness

/-- Closures of the same function, perhaps further down. -/
def Closures (d : Likeness) (f f' : Closure) : Prop := ∃ n, d.moved n ∧ f' = f.down n

def Classes (d : Likeness) (c c' : ClassObject) : Prop := ∃ n, d.moved n ∧ c' = c.down n

def Interpreters (d : Likeness) (r : Ref .interpreter) (i i' : Interpreter) : Prop :=
  i' = i ∨ r = d.home ∧ d.interpreters i i'

variable {d : Likeness}

theorem Closures.refl (f : Closure) : d.Closures f f := ⟨0, d.unmoved, f.down_zero.symm⟩

theorem Classes.refl (c : ClassObject) : d.Classes c c := ⟨0, d.unmoved, c.down_zero.symm⟩

namespace Interpreters
variable {r : Ref .interpreter} {i i' : Interpreter}

theorem same (h : d.Interpreters r i i') : i'.globals = i.globals ∧ i'.file = i.file ∧
    i'.loader = i.loader ∧ i'.reporter.unit = i.reporter.unit := by
  rcases h with rfl | ⟨-, h⟩
  · exact ⟨rfl, rfl, rfl, rfl⟩
  · exact d.same h

/-- What is done to both. -/
theorem both (h : d.Interpreters r i i') {f : Interpreter → Interpreter}
    (hf : ∀ {i i'}, d.interpreters i i' → d.interpreters (f i) (f i')) :
    d.Interpreters r (f i) (f i') := by
  rcases h with rfl | ⟨hr, h⟩
  · exact .inl rfl
  · exact .inr ⟨hr, hf h⟩

end Interpreters

/-- Twin worlds. -/
structure Twins (d : Likeness) (w w' : World) : Prop where
  scopes : w'.scopes = w.scopes
  functions : w.functions.Matches (fun _ => d.Closures) w'.functions
  classes : w.classes.Matches (fun _ => d.Classes) w'.classes
  instances : w'.instances = w.instances
  modules : w'.modules = w.modules
  interpreters : w.interpreters.Matches d.Interpreters w'.interpreters
  loaders : w'.loaders = w.loaders
  files : w'.files = w.files
  workingDirectory : w'.workingDirectory = w.workingDirectory
  out : w'.console.out = w.console.out
  errors : d.errors w.console.err w'.console.err
  verbose : w'.console.verbose = w.console.verbose
  now : w'.now = w.now

namespace Twins
variable {w w' : World}

theorem globals (h : d.Twins w w') (home : Ref .interpreter) : w'.globals home = w.globals home :=
  (h.interpreters.get home).same.1

/-- Nothing else differs. -/
theorem rest (h : d.Twins w w') : w' = { w with
    functions := w'.functions
    classes := w'.classes
    interpreters := w'.interpreters
    console := { w.console with err := w'.console.err } } := by
  obtain ⟨_, _, _, _, _, _, _, _, _, ⟨_, _, _⟩, _⟩ := w
  obtain ⟨_, _, _, _, _, _, _, _, _, ⟨_, _, _⟩, _⟩ := w'
  obtain ⟨rfl, -, -, rfl, rfl, -, rfl, rfl, rfl, rfl, -, rfl, rfl⟩ := h
  rfl

/-! ### What programs see -/

/-- The same methods are found. -/
theorem method? (h : d.Twins w w') (r : Ref .class) (name : String) :
    w.method? r name = none ∧ w'.method? r name = none ∨
      ∃ f f', w.method? r name = some f ∧ w'.method? r name = some f' ∧ d.Closures f f' := by
  refine World.method?_rel (fun c name => ?_) (fun c => ?_) r name
  · obtain ⟨n, hn, hc⟩ := h.classes.get c
    have hfind : ((w.classes.get c).down n).methods.find? name =
        ((w.classes.get c).methods.find? name).map (Closure.down n) := Bindings.find?_map ..
    rw [hc, hfind]
    cases (w.classes.get c).methods.find? name with
    | none => exact .none
    | some f => exact .some ⟨n, hn, rfl⟩
  · obtain ⟨n, -, hc⟩ := h.classes.get c
    rw [hc]
    rfl

theorem arity? (h : d.Twins w w') (v : Value) : w'.arity? v = w.arity? v := by
  refine World.arity?_congr (R := d.Closures) (fun f f' hf => ?_) (fun r => ?_)
    (fun r => h.method? r "init") v
  · obtain ⟨n, -, rfl⟩ := hf
    exact Closure.arity_down ..
  · obtain ⟨n, -, hf⟩ := h.functions.get r
    rw [hf, Closure.arity_down]

theorem display (h : d.Twins w w') (v : Value) : w'.display v = w.display v := by
  refine World.display_congr (fun r => ?_) (fun r => ?_) h.instances h.modules v
  · obtain ⟨n, -, hf⟩ := h.functions.get r
    rw [hf]
    exact FunctionDecl.displayName_down ..
  · obtain ⟨n, -, hc⟩ := h.classes.get r
    rw [hc]
    rfl

theorem findModule (h : d.Twins w w') (home : Ref .interpreter) (name : String) :
    w'.findModule home name = w.findModule home name := by
  obtain ⟨-, hfile, hloader, -⟩ := (h.interpreters.get home).same
  unfold World.findModule World.moduleDirectories
  dsimp only
  rw [h.files, h.workingDirectory, h.loaders, hfile, hloader]

/-! ### What is done to both -/

/-- Both write the same. -/
theorem warn (h : d.Twins w w') (text : String) :
    d.Twins { w with console := w.console.warn text }
      { w' with console := w'.console.warn text } :=
  { h with errors := d.warn text h.errors }

theorem log (h : d.Twins w w') (l : LogLine) : d.Twins (w.log l) (w'.log l) := by
  unfold World.log Console.log
  rw [h.verbose]
  by_cases hv : w.console.verbose = true
  · simp only [hv, if_true]
    exact h.warn l.text
  · simp only [hv]
    exact h

theorem updateInterpreter (h : d.Twins w w') (home : Ref .interpreter)
    {f : Interpreter → Interpreter}
    (hf : ∀ {i i'}, d.interpreters i i' → d.interpreters (f i) (f i')) :
    d.Twins (w.updateInterpreter home f) (w'.updateInterpreter home f) :=
  { h with interpreters := h.interpreters.set home ((h.interpreters.get home).both hf) }

theorem updateLoader (h : d.Twins w w') (loader : Ref .loader) (f : Loader → Loader) :
    d.Twins (w.updateLoader loader f) (w'.updateLoader loader f) := by
  have hloaders : w'.loaders.set loader (f (w'.loaders.get loader)) =
      w.loaders.set loader (f (w.loaders.get loader)) := by rw [h.loaders]
  exact { h with loaders := hloaders }

theorem addInterpreter (h : d.Twins w w') (unit : String) (loader : Ref .loader) :
    d.Twins (w.addInterpreter unit loader) (w'.addInterpreter unit loader) := by
  refine World.addInterpreter_both h unit loader h.interpreters.size h.log fun v v' hv => ?_
  have hscopes : (v'.scopes.addChild none).define v'.scopes.next clockName
      (.clock v'.interpreters.next) = (v.scopes.addChild none).define v.scopes.next clockName
      (.clock v.interpreters.next) := by rw [hv.scopes, hv.interpreters.next]
  exact { hv with
    scopes := hscopes
    interpreters := hv.interpreters.add (.inl (by rw [hv.scopes])) }

theorem staticText_of_unit {r r' : Reporter} (h : r'.unit = r.unit) :
    r'.staticText = r.staticText := by
  unfold Reporter.staticText Reporter.isMain
  rw [h]

theorem runtimeText_of_unit {r r' : Reporter} (h : r'.unit = r.unit) :
    r'.runtimeText = r.runtimeText := by
  unfold Reporter.runtimeText Reporter.isMain
  rw [h]

theorem publish (h : d.Twins w w') (home : Ref .interpreter) (notice : Notice) :
    d.Twins (w.publish home notice) (w'.publish home notice) := by
  cases notice with
  | log l => exact h.log l
  | error e =>
      obtain ⟨-, -, -, hunit⟩ := (h.interpreters.get home).same
      unfold World.publish
      dsimp only
      rw [staticText_of_unit hunit]
      exact (h.warn _).updateInterpreter home d.noteStatic

/-- An error that is reported, perhaps further down. -/
theorem reportRuntime (h : d.Twins w w') (home : Ref .interpreter) {n : Nat} (hn : d.moved n)
    (e : RuntimeError) : d.Twins (w.reportRuntime home e)
      (w'.reportRuntime home { e with token := e.token.down n }) := by
  obtain ⟨-, -, -, hunit⟩ := (h.interpreters.get home).same
  unfold World.reportRuntime
  dsimp only
  rw [runtimeText_of_unit hunit]
  have hwarned : d.Twins
      { w with console := w.console.warn ((w.interpreters.get home).reporter.runtimeText
        e.token.line e.cause.message) }
      { w' with console := w'.console.warn ((w.interpreters.get home).reporter.runtimeText
        (e.token.down n).line e.cause.message) } :=
    { h with errors := d.warnRuntime _ e.token.line e.cause.message hn h.errors }
  exact hwarned.updateInterpreter home d.noteRuntime

/-- A text is prepared alike for an interpreter with the same constants. -/
theorem compile (h : d.Twins w w') (levels : Nat) (home : Ref .interpreter) (file source : String)
    (hc : (w'.interpreters.get home).constants = (w.interpreters.get home).constants) :
    (w'.compile levels home file source).1 = (w.compile levels home file source).1 ∧
      d.Twins (w.compile levels home file source).2 (w'.compile levels home file source).2 := by
  have hall : ∀ (notices : List Notice) {w w' : World}, d.Twins w w' →
      d.Twins (notices.foldl (fun w notice => w.publish home notice) w)
        (notices.foldl (fun w notice => w.publish home notice) w') :=
    fun _ _ _ h => List.foldl_rel h fun notice _ _ _ h => h.publish home notice
  unfold World.compile
  dsimp only
  rw [hc, h.scopes, (h.interpreters.get home).same.1]
  exact ⟨rfl, hall _ h⟩

end Twins
end Likeness
end Treewalk
