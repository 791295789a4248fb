import Treewalk.Proofs.Loading.Course
import Treewalk.Proofs.Reach.Owners

/-!
# One file, one module

Every module was made by a load of the file after which it is named. On one loader the modules of one
file are one and the same as long as no load of the file fails: whatever still leads to the module of
a load that failed sees another module than later imports of the file.
-/
namespace Treewalk

/-! ### Places and their text -/

/-- A place as file systems have them: no name holds a slash, and the last one is not empty. -/
structure RealPath.Named (p : RealPath) : Prop where
  slashes : ∀ name ∈ p.names, '/' ∉ name.toList
  last : ∃ name ∈ p.names.getLast?, name ≠ ""

instance (p : RealPath) : Decidable p.Named :=
  decidable_of_iff ((∀ name ∈ p.names, '/' ∉ name.toList) ∧ ∃ name ∈ p.names.getLast?, name ≠ "")
    ⟨fun h => ⟨h.1, h.2⟩, fun h => ⟨h.slashes, h.last⟩⟩

namespace RealPath.Named
variable {p q : RealPath}

theorem toList_text (h : p.Named) :
    p.text.toList = ['/'].intercalate (p.names.map String.toList) := by
  have hroot : p.names ≠ [""] := by
    intro he
    obtain ⟨name, hlast, hname⟩ := h.last
    rw [he] at hlast
    exact hname (Option.some.inj hlast).symm
  rw [RealPath.text, if_neg hroot]
  exact String.toList_intercalate

theorem splitOn_text (h : p.Named) : p.text.toList.splitOn '/' = p.names.map String.toList := by
  rw [h.toList_text]
  apply List.splitOn_intercalate
  case hx =>
    intro cs hcs
    obtain ⟨name, hname, rfl⟩ := List.mem_map.mp hcs
    exact h.slashes name hname
  case hls =>
    intro hnil
    obtain ⟨name, hlast, -⟩ := h.last
    rw [List.map_eq_nil_iff.mp hnil] at hlast
    cases hlast

/-- Different places have different texts. -/
theorem eq_of_text (hp : p.Named) (hq : q.Named) (h : p.text = q.text) : p = q := by
  have hnames : p.names.map String.toList = q.names.map String.toList := by
    rw [← hp.splitOn_text, ← hq.splitOn_text, h]
  have hinjective := List.map_injective_iff.mpr fun _ _ => String.toList_inj.mp
  exact congrArg RealPath.mk (hinjective hnames)

end RealPath.Named

/-- All files have such places. -/
def FileTree.Named (t : FileTree) : Prop := ∀ p ∈ t.places, p.Named

instance (t : FileTree) : Decidable t.Named :=
  inferInstanceAs (Decidable (∀ p ∈ t.places, p.Named))

/-! ### Modules and their loads -/

/-- The load that made a module failed. -/
def LoadFailed (notes : List LoadEvent) (m : Ref .module) : Prop :=
  ∃ l : Load, l.module = m ∧ l.Failed notes

/-- Every module was made by a load, from a file with a name. -/
structure Traced (s : Watched World LoadEvent) : Prop where
  made : ∀ m : Ref .module, m.index < s.state.modules.size → Load.Made s.state s.notes m
  files : s.state.files.Named
  started : ∀ loads l w, .started loads l w ∈ s.notes → w.files.Named

namespace Traced
variable {s t : Watched World LoadEvent} {w : World} {home : Ref .interpreter}

theorem follows (h : Traced s) (ht : Follows s t) : Traced t where
  made := by
    intro m hm
    rcases Nat.lt_or_ge m.index s.state.modules.size with hold | hnew
    · obtain ⟨loads, l, v, hst, hl, hpath⟩ := h.made m hold
      exact ⟨loads, l, v, ht.notes hst, hl, by rw [ht.modules.get m hold, hpath]⟩
    · exact ht.made m hnew hm
  files := ht.files ▸ h.files
  started := by
    intro loads l v hst
    rcases ht.started loads l v hst with hst | hfiles
    · exact h.started loads l v hst
    · exact hfiles ▸ h.files

/-- Only modules and files matter. -/
theorem of_eq (h : Traced s) (hmodules : w.modules = s.state.modules) (hfiles : w.files.Named) :
    Traced ⟨w, s.notes⟩ where
  made := by
    intro m hm
    obtain ⟨loads, l, v, hst, hl, hpath⟩ := h.made m (hmodules ▸ hm)
    exact ⟨loads, l, v, hst, hl, by rw [hmodules, hpath]⟩
  files := hfiles
  started := h.started

theorem around (h : Traced s) (hw : s.state.SameAround home w) : Traced ⟨w, s.notes⟩ :=
  h.of_eq hw.modules (hw.files ▸ h.files)

theorem run (h : Traced s) : Traced ⟨s.state, .run :: s.notes⟩ where
  made := by
    intro m hm
    obtain ⟨loads, l, v, hst, hload⟩ := h.made m hm
    exact ⟨loads, l, v, List.mem_cons_of_mem _ hst, hload⟩
  files := h.files
  started := fun loads l v hst => h.started loads l v ((List.mem_cons.mp hst).resolve_left nofun)

theorem executeUnit (h : Traced s) (home : Ref .interpreter) (u : CompiledUnit) :
    Traced (Loading.executeUnit home u s).2 := by
  have hrun : Traced ⟨s.state, .run :: s.notes⟩ := h.run
  obtain ⟨w, t, w', hbefore, ht, hafter, hend⟩ := Loading.executeUnit_around home u s
  rw [hend]
  exact ((hrun.around hbefore).follows ht).around hafter

end Traced

/-- Only files with names are put into the world. -/
def SessionStep.Named : SessionStep → Prop
  | .arrange files _ _ _ => files.Named
  | _ => True

theorem SessionStep.load_traced {s : Watched World LoadEvent} {step : SessionStep} (h : Traced s)
    (hstep : step.Named) : Traced (step.load s).2 := by
  cases step with
  | addLoader searchPaths => exact h.of_eq rfl h.files
  | addInterpreter unit loader =>
      obtain ⟨console, hadd⟩ := s.state.addInterpreter_eq unit loader
      change Traced ⟨s.state.addInterpreter unit loader, s.notes⟩
      rw [hadd]
      exact h.of_eq rfl h.files
  | compile home file source => exact h.around (.compile s.state nestingLimit file source)
  | run home file source =>
      unfold load
      by_cases hhome : home.index < s.state.interpreters.size
      · simp only [hhome, if_true]
        have hcompiled : Traced ⟨(s.state.compile nestingLimit home file source).2, s.notes⟩ :=
          h.around (.compile s.state nestingLimit file source)
        exact hcompiled.executeUnit home _
      · simp only [hhome, if_false]
        exact h
  | execute home text =>
      unfold load
      by_cases hhome : home.index < s.state.interpreters.size
      · simp only [hhome, if_true]
        exact h.executeUnit home text.unit
      · simp only [hhome, if_false]
        exact h
  | resetReporter home =>
      have hreset : s.state.SameAround home (s.state.resetReporter home) := .updateInterpreter _ _
      exact h.around hreset
  | arrange files workingDirectory console now => exact h.of_eq rfl hstep

theorem Session.load_traced {steps : List SessionStep} (h : ∀ step ∈ steps, step.Named) :
    Traced (Session.load steps) := by
  have hstart : Traced ⟨{}, []⟩ := ⟨fun _ hm => (Nat.not_lt_zero _ hm).elim, nofun, nofun⟩
  exact List.foldlRecOn steps _ hstart fun s hs step hstep => SessionStep.load_traced hs (h step hstep)

/-! ### Modules and their values -/

/-- Whoever holds a module value: a scope in which a name is bound to it, such as the globals of an
interpreter, or an instance with a field. -/
def World.HasModule (w : World) (m : Ref .module) : Prop :=
  ∃ t, w.Has t ∧ w.Points t (.value (.module m))

theorem World.Separate.module_exists {w : World} {m : Ref .module} (h : w.Separate)
    (hm : w.HasModule m) : m.index < w.modules.size := by
  obtain ⟨owner, ho⟩ := h
  obtain ⟨t, ht, hp⟩ := hm
  have hregion : w.Region owner (owner t) t := ⟨ht, .inr rfl⟩
  exact ((ho.closed _).points t _ hregion hp).1

/-- A module whose load did not fail is registered under the place after which it is named. -/
theorem Traced.registered {s : Watched World LoadEvent} (h : Traced s) (hloads : InLoads True [] s)
    {m : Ref .module} (hm : m.index < s.state.modules.size) (hfailed : ¬LoadFailed s.notes m) :
    ∃ p : RealPath, p.Named ∧ p.text = (s.state.modules.get m).path ∧
      (s.state.loaders.get ⟨0⟩).cached? p = some m := by
  obtain ⟨loads, l, v, hst, rfl, hpath⟩ := h.made m hm
  obtain ⟨-, hregistered⟩ := hloads.started trivial loads l v hst
  have hcached := hregistered.resolve_right fun hl => hfailed ⟨l, rfl, hl⟩
  have htold := hloads.told
  obtain ⟨later, earlier, hnotes⟩ := List.append_of_mem hst
  rw [hnotes] at htold
  obtain ⟨-, hfits⟩ := htold.split
  obtain ⟨-, -, -, hplace, -⟩ := hfits trivial
  exact ⟨l.place, h.started loads l v hst l.place hplace, hpath.symm, hcached⟩

/-- An import of a registered file yields the registered module and loads nothing. -/
theorem Eval.importModule_cached {w : World} {home : Ref .interpreter} {token : Token}
    {levels : Nat} {run : Site → Stmt → Eval Unit} {place : RealPath} {e : FileEntry}
    {m : Ref .module} (hfound : w.findModule home (importedModule token) = .entry place e)
    (hcached : (w.loaders.get (w.interpreters.get home).loader).cached? place = some m) :
    Eval.importModule levels run home token w =
      .ok m (w.log (.moduleCached (importedModule token) place.text)) := by
  unfold Eval.importModule
  change EStateM.bind (fun w => .ok w w) _ w = _
  unfold EStateM.bind
  dsimp only
  rw [hfound]
  dsimp only
  rw [hcached]
  rfl

/-- On one loader, in whatever circles modules import each other, however the steps end and whatever
becomes of the files between them: all module values of one path that are held anywhere after a step
are the same object, except those whose load failed. The loader remembers this object, and importing
the path again binds it and loads nothing. The text of a path tells files apart because their names
are those that a file system allows. -/
theorem one_module_per_file {steps : List SessionStep} (searchPaths : List WrittenPath)
    (hloader : ∀ step ∈ steps, step.OnOneLoader) (hnamed : ∀ step ∈ steps, step.Named) :
    let s := Session.load (.addLoader searchPaths :: steps)
    let w := s.state
    w = Session.play (.addLoader searchPaths :: steps) ∧
    ∀ m, w.HasModule m → ¬LoadFailed s.notes m →
      (∃ p : RealPath, p.text = (w.modules.get m).path ∧
        (w.loaders.get ⟨0⟩).cached? p = some m) ∧
      (∀ m', w.HasModule m' → ¬LoadFailed s.notes m' →
        (w.modules.get m').path = (w.modules.get m).path → m' = m) ∧
      ∀ v site token place e, w.SameThings v → v.files = w.files →
        v.findModule site.home (importedModule token) = .entry place e →
        place.text = (w.modules.get m).path →
        ∀ patience levels keyword as, ∃ v',
          Eval.statement patience (levels + 1) site (.importModule keyword token as) v = .ok () v' ∧
          v'.scopes = v.scopes.define site.scope (importBinding token as) (.module m) ∧
          v'.modules = v.modules := by
  intro s w
  have hplay : w = Session.play (.addLoader searchPaths :: steps) := Session.load_state _
  have htraced : Traced s := Session.load_traced (List.forall_mem_cons.mpr ⟨trivial, hnamed⟩)
  have hstart : InLoads True [] ⟨({} : World).addLoader searchPaths, []⟩ :=
    Session.inLoads_start (fun _ => Nat.zero_lt_one) rfl
      fun r => (World.caches_addLoader {} searchPaths r).trans rfl
  have hall := Session.foldl_inLoads hstart fun _ => hloader
  have hloads : InLoads True [] s := hall
  have hseparate : w.Separate := by
    rw [hplay, ← Session.watch_state]
    exact (Session.watch_apart _).now
  refine ⟨hplay, fun m hm hfailed => ?_⟩
  obtain ⟨p, hp, hpath, hcached⟩ := htraced.registered hloads (hseparate.module_exists hm) hfailed
  refine ⟨⟨p, hpath, hcached⟩, fun m' hm' hfailed' hsame => ?_, ?_⟩
  · -- Both modules are registered under their paths, and places of one text are one place.
    obtain ⟨p', hp', hpath', hcached'⟩ :=
      htraced.registered hloads (hseparate.module_exists hm') hfailed'
    have hplaces : p' = p := hp'.eq_of_text hp (hpath'.trans (hsame.trans hpath.symm))
    rw [hplaces, hcached] at hcached'
    exact (Option.some.inj hcached').symm
  · intro v site token place e hv hfiles hfound hplace patience levels keyword as
    have hfile : place ∈ w.files.places := hfiles ▸ World.findModule_places hfound
    have hplaces : place = p := (htraced.files place hfile).eq_of_text hp (hplace.trans hpath.symm)
    have hagain : (v.loaders.get (v.interpreters.get site.home).loader).cached? place = some m := by
      rw [hv.homes site.home, hloads.single trivial site.home, hplaces, ← hcached]
      unfold Loader.cached?
      rw [hv.caches]
    refine ⟨{ v.log (.moduleCached (importedModule token) place.text) with
      scopes := v.scopes.define site.scope (importBinding token as) (.module m) }, ?_, rfl, rfl⟩
    unfold Eval.statement
    change EStateM.bind (Eval.importModule _ _ _ _) _ v = _
    unfold EStateM.bind
    rw [Eval.importModule_cached hfound hagain]
    rfl

/-- The module that a value is. -/
def Value.module? : Value → Option (Ref .module)
  | .module m => some m
  | _ => none

theorem Value.eq_of_module? {v : Option Value} {m : Ref .module} (h : v.bind module? = some m) :
    v = some (.module m) := by
  obtain ⟨v, rfl, hv⟩ := Option.bind_eq_some_iff.mp h
  cases v with
  | module m' => exact congrArg (some ∘ Value.module) (Option.some.inj hv)
  | _ => cases hv

/-- Whether a load fails here. -/
def LoadEvent.isFailure : LoadEvent → Bool
  | .ended _ .rejected | .ended _ (.failed _) => true
  | _ => false

theorem not_loadFailed {notes : List LoadEvent} (h : ∀ e ∈ notes, e.isFailure = false)
    (m : Ref .module) : ¬LoadFailed notes m := by
  rintro ⟨l, -, e, he, hfails⟩
  have hnone := h e he
  cases hfails <;> cases hnone

theorem Session.withModules_onOneLoader (files : List (String × String)) (source : String) :
    ∀ step ∈ withModules files source, step.OnOneLoader := by
  intro step hstep
  unfold withModules at hstep
  simp only [List.mem_cons, List.not_mem_nil, or_false] at hstep
  rcases hstep with rfl | rfl | rfl
  · rfl
  · trivial
  · trivial

/-- Two modules that import each other, and are imported in turn. -/
theorem one_module_per_file_circle :
    let steps := Session.withModules [("a.lox", "import b;"), ("b.lox", "import a;")]
      "import a; import b;"
    let w := Session.play (.addLoader [] :: steps)
    (∀ step ∈ steps, step.OnOneLoader) ∧ (∀ step ∈ steps, step.Named) ∧
      w.HasModule ⟨1⟩ ∧ ∀ m, w.HasModule m → (w.modules.get m).path = "/b.lox" → m = ⟨1⟩ := by
  intro steps w
  have hloader : ∀ step ∈ steps, step.OnOneLoader := Session.withModules_onOneLoader _ _
  have hnamed : ∀ step ∈ steps, step.Named := by
    intro step hstep
    unfold steps Session.withModules at hstep
    simp only [List.mem_cons, List.not_mem_nil, or_false] at hstep
    rcases hstep with rfl | rfl | rfl
    · trivial
    · change FileTree.Named _
      decide +kernel
    · trivial
  have hbound : (w.scopes.find? (w.globals ⟨0⟩) "b").bind Value.module? = some ⟨1⟩ ∧
      (w.globals ⟨0⟩).index < w.scopes.size ∧ (w.modules.get ⟨1⟩).path = "/b.lox" := by
    decide +kernel
  obtain ⟨hb, hglobals, hpath⟩ := hbound
  have hheld : w.HasModule ⟨1⟩ := ⟨.scope (w.globals ⟨0⟩), hglobals, .bound (Value.eq_of_module? hb)⟩
  have hfailed : ∀ m, ¬LoadFailed (Session.load (.addLoader [] :: steps)).notes m :=
    not_loadFailed (by decide +kernel)
  obtain ⟨hplay, hall⟩ := one_module_per_file [] hloader hnamed
  rw [hplay] at hall
  obtain ⟨-, hsame, -⟩ := hall ⟨1⟩ hheld (hfailed _)
  exact ⟨hloader, hnamed, hheld, fun m hm hb => hsame m hm (hfailed m) (hb.trans hpath.symm)⟩

/-- A module `b` holds the module of a file whose load failed after `b` was loaded. The file is loaded
again, and its module is another one. -/
theorem failed_module_held :
    let steps := .addLoader [] ::
      (Session.withModules [("a.lox", "import b; nil();"), ("b.lox", "import a;")] "import a;" ++
        Session.withModules [("a.lox", ""), ("b.lox", "import a;")] "import a; import b;")
    let w := Session.play steps
    (∀ step ∈ steps, step.OnOneLoader) ∧
      w.scopes.find? (w.globals ⟨0⟩) "a" = some (.module ⟨2⟩) ∧
      (w.loaders.get ⟨0⟩).cached? ⟨["", "b.lox"]⟩ = some ⟨1⟩ ∧
      w.scopes.find? (w.globals (w.modules.get ⟨1⟩).home) "a" = some (.module ⟨0⟩) ∧
      (w.modules.get ⟨2⟩).path = (w.modules.get ⟨0⟩).path := by
  intro steps w
  have hloader : ∀ step ∈ steps, step.OnOneLoader := by
    intro step hstep
    rcases List.mem_cons.mp hstep with rfl | hstep
    · trivial
    · rcases List.mem_append.mp hstep with hstep | hstep
      · exact Session.withModules_onOneLoader _ _ step hstep
      · exact Session.withModules_onOneLoader _ _ step hstep
  have hmodules : (w.scopes.find? (w.globals ⟨0⟩) "a").bind Value.module? = some ⟨2⟩ ∧
      (w.loaders.get ⟨0⟩).cached? ⟨["", "b.lox"]⟩ = some ⟨1⟩ ∧
      (w.scopes.find? (w.globals (w.modules.get ⟨1⟩).home) "a").bind Value.module? = some ⟨0⟩ ∧
      (w.modules.get ⟨2⟩).path = (w.modules.get ⟨0⟩).path := by
    decide +kernel
  obtain ⟨ha, hb, hheld, hpath⟩ := hmodules
  exact ⟨hloader, Value.eq_of_module? ha, hb, Value.eq_of_module? hheld, hpath⟩

end Treewalk
