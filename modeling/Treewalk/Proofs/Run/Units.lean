import Treewalk.Proofs.Run.Modules

/-!
# What steps leave alone

Steps that run no body touch only scopes and objects; interpreters, modules, loaders, files and the
console stay as they are. Preparing and reporting touch only the console and what an interpreter keeps
for its units.
-/
namespace Treewalk

/-- A module is found in the cache only if it is there. -/
theorem Loader.mem_of_cached? {c : Loader} {p : RealPath} {m : Ref .module}
    (h : c.cached? p = some m) : (p, m) ∈ c.cache := by
  obtain ⟨e, he, rfl⟩ := Option.map_eq_some_iff.mp h
  have hplace : decide (e.1 = p) = true := List.find?_some
    (p := fun e : RealPath × Ref .module => decide (e.1 = p)) he
  exact of_decide_eq_true hplace ▸ List.mem_of_find?_eq_some he

theorem Loader.mem_forget {c : Loader} {p : RealPath} {e : RealPath × Ref .module} :
    e ∈ (c.forget p).cache ↔ e ∈ c.cache ∧ e.1 ≠ p := by
  unfold forget
  simp

namespace World

/-- Interpreters, modules, loaders and files are the same. -/
structure SameUnits (w w' : World) : Prop where
  interpreters : w'.interpreters = w.interpreters
  modules : w'.modules = w.modules
  loaders : w'.loaders = w.loaders
  files : w'.files = w.files

/-- Only scopes and objects may differ. -/
structure SameOutside (w w' : World) : Prop extends w.SameUnits w' where
  workingDirectory : w'.workingDirectory = w.workingDirectory
  console : w'.console = w.console
  now : w'.now = w.now

namespace SameOutside
variable {w w' w'' : World}

theorem refl (w : World) : w.SameOutside w := ⟨⟨rfl, rfl, rfl, rfl⟩, rfl, rfl, rfl⟩

theorem trans (h : w.SameOutside w') (h' : w'.SameOutside w'') : w.SameOutside w'' where
  interpreters := h'.interpreters.trans h.interpreters
  modules := h'.modules.trans h.modules
  loaders := h'.loaders.trans h.loaders
  files := h'.files.trans h.files
  workingDirectory := h'.workingDirectory.trans h.workingDirectory
  console := h'.console.trans h.console
  now := h'.now.trans h.now

end SameOutside

/-- The objects are the same, and interpreters have the globals and loaders that they had. -/
structure SameObjects (w w' : World) : Prop where
  scopes : w'.scopes = w.scopes
  functions : w'.functions = w.functions
  classes : w'.classes = w.classes
  instances : w'.instances = w.instances
  modules : w'.modules = w.modules
  loaders : w'.loaders = w.loaders
  files : w'.files = w.files
  size : w'.interpreters.size = w.interpreters.size
  globals : ∀ home, w'.globals home = w.globals home
  homes : ∀ home, (w'.interpreters.get home).loader = (w.interpreters.get home).loader

namespace SameObjects
variable {w w' w'' : World}

theorem refl (w : World) : w.SameObjects w :=
  ⟨rfl, rfl, rfl, rfl, rfl, rfl, rfl, rfl, fun _ => rfl, fun _ => rfl⟩

theorem trans (h : w.SameObjects w') (h' : w'.SameObjects w'') : w.SameObjects w'' where
  scopes := h'.scopes.trans h.scopes
  functions := h'.functions.trans h.functions
  classes := h'.classes.trans h.classes
  instances := h'.instances.trans h.instances
  modules := h'.modules.trans h.modules
  loaders := h'.loaders.trans h.loaders
  files := h'.files.trans h.files
  size := h'.size.trans h.size
  globals home := (h'.globals home).trans (h.globals home)
  homes home := (h'.homes home).trans (h.homes home)

end SameObjects

variable (w : World)

theorem sameObjects_console (console : Console) : w.SameObjects { w with console := console } :=
  ⟨rfl, rfl, rfl, rfl, rfl, rfl, rfl, rfl, fun _ => rfl, fun _ => rfl⟩

theorem sameObjects_log (l : LogLine) : w.SameObjects (w.log l) := w.sameObjects_console _

theorem sameObjects_updateInterpreter (home : Ref .interpreter) {f : Interpreter → Interpreter}
    (hf : ∀ i, (f i).globals = i.globals ∧ (f i).loader = i.loader) :
    w.SameObjects (w.updateInterpreter home f) := by
  have hget : ∀ home' : Ref .interpreter,
      ((w.updateInterpreter home f).interpreters.get home').globals =
        (w.interpreters.get home').globals ∧
      ((w.updateInterpreter home f).interpreters.get home').loader =
        (w.interpreters.get home').loader := by
    intro home'
    rcases Nat.lt_or_ge home.index w.interpreters.size with hlt | hge
    · rw [get_updateInterpreter w f hlt]
      by_cases he : home' = home
      · rw [if_pos he, he]
        exact hf _
      · rw [if_neg he]
        exact ⟨rfl, rfl⟩
    · unfold updateInterpreter
      rw [Arena.set_of_le _ _ hge]
      exact ⟨rfl, rfl⟩
  exact ⟨rfl, rfl, rfl, rfl, rfl, rfl, rfl, Arena.size_set .., fun home' => (hget home').1,
    fun home' => (hget home').2⟩

theorem sameObjects_publish (home : Ref .interpreter) (notice : Notice) :
    w.SameObjects (w.publish home notice) := by
  cases notice with
  | log l => exact w.sameObjects_log l
  | error d =>
      exact (w.sameObjects_console _).trans (sameObjects_updateInterpreter _ home
        (f := fun i => { i with reporter := i.reporter.noteStatic }) fun _ => ⟨rfl, rfl⟩)

theorem sameObjects_reportRuntime (home : Ref .interpreter) (e : RuntimeError) :
    w.SameObjects (w.reportRuntime home e) :=
  (w.sameObjects_console _).trans (sameObjects_updateInterpreter _ home
    (f := fun i => { i with reporter := i.reporter.noteRuntime }) fun _ => ⟨rfl, rfl⟩)

theorem sameObjects_prepare (home : Ref .interpreter) (u : CompiledUnit) :
    w.SameObjects (w.prepare home u) :=
  w.sameObjects_updateInterpreter home
    (f := fun i => { i with constants := u.constants, file := some u.file }) fun _ => ⟨rfl, rfl⟩

theorem sameObjects_compile (levels : Nat) (home : Ref .interpreter) (file source : String) :
    w.SameObjects (w.compile levels home file source).2 := by
  exact List.foldlRecOn _ _ (motive := w.SameObjects) (.refl w)
    fun v h notice _ => h.trans (v.sameObjects_publish home notice)

/-! ### Loaders -/

theorem get_updateLoader (r : Ref .loader) (f : Loader → Loader)
    (h : r.index < w.loaders.size) (r' : Ref .loader) :
    (w.updateLoader r f).loaders.get r' =
      if r' = r then f (w.loaders.get r) else w.loaders.get r' := by
  unfold updateLoader
  by_cases he : r' = r
  · rw [if_pos he, he]
    exact Arena.get_set_self _ _ h
  · rw [if_neg he]
    exact Arena.get_set_of_ne _ _ (Ne.symm he)

/-- What is in a cache after a registration. -/
theorem mem_cache_register {w : World} {r r' : Ref .loader} {p : RealPath} {m : Ref .module}
    {e : RealPath × Ref .module}
    (h : e ∈ ((w.updateLoader r fun c => c.register p m).loaders.get r').cache) :
    e ∈ (w.loaders.get r').cache ∨ r' = r ∧ e = (p, m) := by
  rcases Nat.lt_or_ge r.index w.loaders.size with hlt | hge
  · rw [w.get_updateLoader r _ hlt] at h
    by_cases he : r' = r
    · rw [if_pos he] at h
      rcases List.mem_append.mp h with h | h
      · exact .inl (he ▸ h)
      · exact .inr ⟨he, List.mem_singleton.mp h⟩
    · rw [if_neg he] at h
      exact .inl h
  · unfold updateLoader at h
    rw [Arena.set_of_le _ _ hge] at h
    exact .inl h

/-- What is in a cache after something was forgotten. -/
theorem mem_cache_forget {w : World} {r r' : Ref .loader} {p : RealPath}
    {e : RealPath × Ref .module}
    (h : e ∈ ((w.updateLoader r fun c => c.forget p).loaders.get r').cache) :
    e ∈ (w.loaders.get r').cache ∧ (r' = r → e.1 ≠ p) := by
  rcases Nat.lt_or_ge r.index w.loaders.size with hlt | hge
  · rw [w.get_updateLoader r _ hlt] at h
    by_cases he : r' = r
    · rw [if_pos he] at h
      have hboth := Loader.mem_forget.mp h
      exact ⟨he ▸ hboth.1, fun _ => hboth.2⟩
    · rw [if_neg he] at h
      exact ⟨h, fun hr => (he hr).elim⟩
  · unfold updateLoader at h
    rw [Arena.set_of_le _ _ hge] at h
    refine ⟨h, fun hr => ?_⟩
    rw [hr, Arena.get_of_le _ hge] at h
    exact (List.not_mem_nil h).elim

/-! ### New interpreters and modules -/

theorem caches_addLoader (searchPaths : List WrittenPath) (r : Ref .loader) :
    ((w.addLoader searchPaths).loaders.get r).cache = (w.loaders.get r).cache := by
  unfold addLoader
  rw [Arena.get_add]
  by_cases h : r = w.loaders.next
  · rw [if_pos h, Arena.get_of_le _ (h ▸ Nat.le_refl _)]
    rfl
  · rw [if_neg h]

variable (unit : String) (loader : Ref .loader)

theorem sameUnits_log (l : LogLine) : w.SameUnits (w.log l) := ⟨rfl, rfl, rfl, rfl⟩

theorem get_addInterpreter : (w.addInterpreter unit loader).interpreters.get w.interpreters.next =
    { reporter := { unit := unit }, globals := w.scopes.next, loader := loader } := by
  obtain ⟨console, hadd⟩ := w.addInterpreter_eq unit loader
  rw [hadd]
  exact Arena.get_add_next ..

/-- A file gets a module with an interpreter, and is registered. -/
def enroll (place : RealPath) : World :=
  let w' := (w.log (.moduleLoading unit place.text)).addInterpreter unit loader
  let w' := { w' with modules := w'.modules.add ⟨unit, place.text, w.interpreters.next⟩ }
  w'.updateLoader loader fun c => c.register place w.modules.next

theorem enroll_eq (place : RealPath) : ∃ console, w.enroll unit loader place = { w with
    scopes := (w.scopes.addChild none).define w.scopes.next clockName (.clock w.interpreters.next)
    interpreters := w.interpreters.add
      { reporter := { unit := unit }, globals := w.scopes.next, loader := loader }
    modules := w.modules.add ⟨unit, place.text, w.interpreters.next⟩
    loaders := (w.updateLoader loader fun c => c.register place w.modules.next).loaders
    console := console } := by
  obtain ⟨console, hadd⟩ := (w.log (.moduleLoading unit place.text)).addInterpreter_eq unit loader
  refine ⟨console, ?_⟩
  unfold enroll
  rw [hadd]
  rfl

end World

namespace Eval
variable {α β : Type}

/-- Evaluation that leaves interpreters, modules, loaders and files alone, however it ends. -/
def Indoors (p : Eval α) : Prop := ∀ w : World,
  match p w with
  | .ok _ w' | .error _ w' => w.SameUnits w'

/-- Evaluation that changes nothing but scopes and objects, however it ends. -/
def Inside (p : Eval α) : Prop := ∀ w : World,
  match p w with
  | .ok _ w' | .error _ w' => w.SameOutside w'

namespace Inside

theorem pure (a : α) : Inside (Pure.pure a : Eval α) := .refl

theorem throw (i : Interrupt) : Inside (MonadExcept.throw i : Eval α) := .refl

theorem bind {p : Eval β} {f : β → Eval α} (hp : Inside p) (hf : ∀ b, Inside (f b)) :
    Inside (p >>= f) := by
  intro w
  have hpw := hp w
  rw [Eval.bind_run]
  cases hr : p w with
  | error i t =>
      rw [hr] at hpw
      exact hpw
  | ok b t =>
      rw [hr] at hpw
      have hft := hf b t
      cases hr' : f b t with
      | ok a u =>
          rw [hr'] at hft
          simp only [hr']
          exact hpw.trans hft
      | error i u =>
          rw [hr'] at hft
          simp only [hr']
          exact hpw.trans hft

theorem getting {f : World → Eval α} (h : ∀ w, Inside (f w)) : Inside (get >>= f) :=
  fun w => h w w

theorem modifying {f : World → α × World} (h : ∀ w : World, w.SameOutside (f w).2) :
    Inside (modifyGet f) := h

theorem indoors {p : Eval α} (hp : Inside p) : Indoors p := by
  intro w
  have hpw := hp w
  cases hr : p w with
  | ok a t =>
      rw [hr] at hpw
      exact hpw.toSameUnits
  | error i t =>
      rw [hr] at hpw
      exact hpw.toSameUnits

end Inside

theorem inside_newScope (parent : Ref .scope) : Inside (newScope parent) :=
  .modifying fun _ => ⟨⟨rfl, rfl, rfl, rfl⟩, rfl, rfl, rfl⟩

theorem inside_define (scope : Ref .scope) (name : String) (v : Value) :
    Inside (define scope name v) := .modifying fun _ => ⟨⟨rfl, rfl, rfl, rfl⟩, rfl, rfl, rfl⟩

theorem inside_ancestor (scope : Ref .scope) (hops : Nat) : Inside (ancestor scope hops) := by
  refine .getting fun w => ?_
  cases w.scopes.ancestor? hops scope with
  | some r => exact .pure r
  | none => exact .throw _

theorem inside_loadAt (scope : Ref .scope) (hops : Nat) (name : String) :
    Inside (loadAt scope hops name) := by
  refine .bind (inside_ancestor scope hops) fun r => .getting fun w => ?_
  cases w.scopes.find? r name with
  | some v => exact .pure v
  | none => exact .throw _

theorem inside_read (site : Site) (use : NameUse) : Inside (read site use) := by
  unfold read
  cases use.hops with
  | some hops => exact inside_loadAt site.scope hops use.name.lexeme
  | none =>
      refine .getting fun w => ?_
      cases w.scopes.load? (w.globals site.home) use.name.lexeme with
      | some v => exact .pure v
      | none => exact .throw _

theorem inside_assign (site : Site) (use : NameUse) (v : Value) : Inside (assign site use v) := by
  intro w
  cases hu : use.hops with
  | some hops =>
      unfold assign
      simp only [hu]
      exact Inside.bind (inside_ancestor site.scope hops) (fun r => inside_define r _ v) w
  | none =>
      rw [assign_global site hu]
      cases w.scopes.store? (w.globals site.home) use.name.lexeme v with
      | some scopes => exact ⟨⟨rfl, rfl, rfl, rfl⟩, rfl, rfl, rfl⟩
      | none => exact .refl w

theorem inside_ofOperator (token : Token) (r : Except OperatorFailure Value) :
    Inside (ofOperator token r) := by
  cases r with
  | ok v => exact .pure v
  | error e =>
      cases e with
      | error cause => exact .throw _
      | crash c => exact .throw _

theorem inside_checkCall (callee : Value) (paren : Token) (found : Nat) :
    Inside (checkCall callee paren found) := by
  refine .getting fun w => ?_
  cases w.arity? callee with
  | none => exact .throw _
  | some expected =>
      by_cases h : found ≠ expected
      · simp only [h, ne_eq, not_false_eq_true, if_true]
        exact .throw _
      · simp only [h, if_false]
        exact .pure ()

theorem inside_checkFields (object : Value) (name : Token) :
    Inside (checkFields object name) := by
  cases object with
  | «instance» r => exact .pure ()
  | module r => exact .pure ()
  | _ => exact .throw _

theorem inside_setProperty (object : Value) (name : Token) (v : Value) :
    Inside (setProperty object name v) := by
  intro w
  unfold setProperty
  rw [get_run]
  cases object with
  | «instance» r => exact ⟨⟨rfl, rfl, rfl, rfl⟩, rfl, rfl, rfl⟩
  | module r =>
      by_cases hc : w.scopes.contains (w.globals (w.modules.get r).home) name.lexeme = true
      · simp only [hc, if_true]
        exact inside_define _ _ v w
      · simp only [hc]
        exact .refl w
  | _ => exact .refl w

theorem inside_newFunction (f : Closure) : Inside (newFunction f) :=
  .modifying fun _ => ⟨⟨rfl, rfl, rfl, rfl⟩, rfl, rfl, rfl⟩

theorem inside_newClass (c : ClassObject) : Inside (newClass c) :=
  .modifying fun _ => ⟨⟨rfl, rfl, rfl, rfl⟩, rfl, rfl, rfl⟩

theorem inside_newInstance (c : Ref .class) : Inside (newInstance c) :=
  .modifying fun _ => ⟨⟨rfl, rfl, rfl, rfl⟩, rfl, rfl, rfl⟩

theorem inside_bound (f : Closure) (receiver : Ref .instance) : Inside (bound f receiver) :=
  .bind (inside_newScope f.scope) fun scope =>
    .bind (inside_define scope "this" (.instance receiver)) fun _ => .pure _

theorem inside_property (object : Value) (name : Token) : Inside (property object name) := by
  refine .getting fun w => ?_
  cases object with
  | «instance» r =>
      simp only
      split
      · exact .pure _
      · split
        · exact .bind (inside_bound _ r) fun f => inside_newFunction f
        · exact .throw _
  | module r =>
      simp only
      split
      · exact .pure _
      · exact .throw _
  | _ => exact .throw _

theorem inside_superMethod (site : Site) (use : NameUse) (method : Token) :
    Inside (superMethod site use method) := by
  unfold superMethod
  cases use.hops with
  | none => exact .throw _
  | some hops =>
      refine .bind (inside_loadAt _ _ _) fun superclass =>
        .bind (inside_loadAt _ _ _) fun receiver => ?_
      split
      · refine .getting fun w => ?_
        split
        · exact .bind (inside_bound _ _) fun f => inside_newFunction f
        · exact .throw _
      · exact .throw _

theorem inside_superclass (site : Site) (use : NameUse) : Inside (superclass site use) := by
  refine .bind (inside_read site use) fun v => ?_
  cases v with
  | «class» r => exact .pure r
  | _ => exact .throw _

/-- The superclass of a class, if there is to be one. -/
theorem inside_parent (site : Site) (parent : Option NameUse) :
    Inside (parent.mapM (superclass site)) := by
  cases parent with
  | none => exact .pure _
  | some use => exact .bind (inside_superclass site use) fun _ => .pure _

theorem inside_declareClass (site : Site) (name : Token) (parent : Option (Ref .class))
    (methods : List FunctionDecl) : Inside (declareClass site name parent methods) := by
  refine .bind (inside_define _ _ _) fun _ => ?_
  cases parent with
  | none =>
      exact .bind (.pure _) fun scope => .bind (inside_newClass _) fun c => inside_define _ _ c
  | some c =>
      exact .bind (inside_newScope _) fun scope => .bind (inside_define _ _ _) fun _ =>
        .bind (.pure scope) fun scope => .bind (inside_newClass _) fun c => inside_define _ _ c

/-- Reading a file changes nothing. -/
theorem readModule_same (token : Token) (name : String) (e : FileEntry) (w : World) :
    match readModule token name e w with
    | .ok _ w' | .error _ w' => w' = w := by
  cases e with
  | file bytes =>
      unfold readModule
      cases h : Text.decode? bytes with
      | some s =>
          simp only [h]
          rfl
      | none =>
          simp only [h]
          rfl
  | unreadable reason => rfl
  | directory => rfl

theorem inside_readModule (token : Token) (name : String) (e : FileEntry) :
    Inside (readModule token name e) := by
  intro w
  have hsame := readModule_same token name e w
  cases hr : readModule token name e w with
  | ok a t =>
      rw [hr] at hsame
      exact hsame ▸ .refl w
  | error i t =>
      rw [hr] at hsame
      exact hsame ▸ .refl w

end Eval
end Treewalk
