import Treewalk.Proofs.Run.Throughout
import Treewalk.Proofs.Run.Homes
import Treewalk.Proofs.Loading.Course
import Treewalk.Proofs.Pieces.Joining

/-!
# Where imports look

An import looks for its file from the file of the unit that its interpreter executed last. This is
the unit in which the import is written as long as the interpreter is given no unit of another file.
-/
namespace Treewalk

/-! ### First files -/

namespace FileTree

/-- The file that is found inside a directory. -/
def Has (t : FileTree) (names : List String) (d : RealPath × List String) : Prop :=
  ∃ place e, t.find d.1 (d.2 ++ names) = .entry place e ∧ e.isFile = true

/-- What is found first: a file in one of the directories and in none before it, or no file, or a
name that is too long for any file of a directory before that. -/
def First (t : FileTree) (names : List String) (ds : List (RealPath × List String)) : Found → Prop
  | .entry place e => ∃ before d after, ds = before ++ d :: after ∧
      t.find d.1 (d.2 ++ names) = .entry place e ∧ e.isFile = true ∧ ∀ d' ∈ before, ¬t.Has names d'
  | .nothing => ∀ d ∈ ds, ¬t.Has names d
  | .nameTooLong => ∃ before d after, ds = before ++ d :: after ∧
      t.find d.1 (d.2 ++ names) = .nameTooLong ∧ ∀ d' ∈ before, ¬t.Has names d'

variable {t : FileTree} {names : List String} {d : RealPath × List String}
  {ds : List (RealPath × List String)} {r : Found}

theorem First.later (h : t.First names ds r) (hd : ¬t.Has names d) : t.First names (d :: ds) r := by
  cases r with
  | nothing => exact List.forall_mem_cons.mpr ⟨hd, h⟩
  | entry place e =>
      obtain ⟨before, d', after, rfl, hfind, hfile, hbefore⟩ := h
      exact ⟨d :: before, d', after, rfl, hfind, hfile, List.forall_mem_cons.mpr ⟨hd, hbefore⟩⟩
  | nameTooLong =>
      obtain ⟨before, d', after, rfl, hfind, hbefore⟩ := h
      exact ⟨d :: before, d', after, rfl, hfind, List.forall_mem_cons.mpr ⟨hd, hbefore⟩⟩

theorem first_firstFile (t : FileTree) (names : List String) (ds : List (RealPath × List String)) :
    t.First names ds (World.firstFile t names ds) := by
  induction ds with
  | nil => exact fun _ hd => nomatch hd
  | cons d ds ih =>
      obtain ⟨directory, inside⟩ := d
      unfold World.firstFile
      cases hfind : t.find directory (inside ++ names) with
      | nameTooLong => exact ⟨[], _, ds, rfl, hfind, List.forall_mem_nil _⟩
      | nothing =>
          refine ih.later ?_
          rintro ⟨place, e, hentry, -⟩
          cases hfind.symm.trans hentry
      | entry place e =>
          by_cases he : e.isFile = true
          · simp only [he, if_true]
            exact ⟨[], _, ds, rfl, hfind, he, List.forall_mem_nil _⟩
          · simp only [he]
            refine ih.later ?_
            rintro ⟨place', e', hentry, hfile⟩
            cases hfind.symm.trans hentry
            exact he hfile

end FileTree

/-- The directories in which the imports of a unit look for files: that of the unit's own file, if it
has one, the search paths of the loader and the working directory. -/
def UnitText.directories (t : UnitText) (w : World) (loader : Ref .loader) :
    List (RealPath × List String) :=
  (if t.file.startsWith "<" then []
    else [(((WrittenPath.ofText t.file).resolve w.workingDirectory).parent, [])]) ++
  (w.loaders.get loader).searchPaths.map (fun p => (p.start w.workingDirectory, p.names)) ++
  [(w.workingDirectory, [])]

/-! ### The files of interpreters -/

/-- Every interpreter has the file that it had. -/
structure World.SameSources (w w' : World) : Prop where
  size : w'.interpreters.size = w.interpreters.size
  file : ∀ r, (w'.interpreters.get r).file = (w.interpreters.get r).file

namespace World.SameSources
variable {w : World}

theorem updateInterpreter (home : Ref .interpreter) {f : Interpreter → Interpreter}
    (hf : ∀ i, (f i).file = i.file) : w.SameSources (w.updateInterpreter home f) := by
  refine ⟨Arena.size_set .., fun r => ?_⟩
  rcases Nat.lt_or_ge home.index w.interpreters.size with hlt | hge
  · rw [get_updateInterpreter w f hlt]
    by_cases he : r = home
    · rw [if_pos he, he, hf]
    · rw [if_neg he]
  · unfold World.updateInterpreter
    rw [Arena.set_of_le _ _ hge]

theorem reportRuntime (home : Ref .interpreter) (e : RuntimeError) :
    w.SameSources (w.reportRuntime home e) := by
  have hnoted : ∀ v : World, v.SameSources (v.updateInterpreter home fun i =>
      { i with reporter := i.reporter.noteRuntime }) := fun v => updateInterpreter home fun _ => rfl
  exact ⟨(hnoted { w with console := _ }).size, (hnoted { w with console := _ }).file⟩

theorem compile (levels : Nat) (home : Ref .interpreter) (file source : String) :
    w.SameSources (w.compile levels home file source).2 := by
  have h := World.SameBut.compile w levels home file source
  refine ⟨h.size, fun r => ?_⟩
  by_cases he : r = home
  · obtain ⟨hadError, errorCount, hown⟩ := h.own
    rw [he, hown]
  · rw [h.others r he]

end World.SameSources

/-- What an interpreter began belongs to units of the file that it now takes imports from. -/
def World.Traces (home : Ref .interpreter) (w : World) (notes : List Event) : Prop :=
  ∀ text st, .began home text st ∈ notes → home.index < w.interpreters.size ∧
    (w.interpreters.get home).file = some text.file

/-- So it was whenever a node was noted. -/
structure Watched.Traced (home : Ref .interpreter) (s : Watched World Event) : Prop where
  now : s.state.Traces home s.notes
  past : ∀ later m site n w earlier, s.notes = later ++ .node m site n w :: earlier →
    w.Traces home earlier

section
variable {home home' : Ref .interpreter} {s t : Watched World Event} {w : World} {text : UnitText}

theorem World.Traces.imp {notes : List Event} (h : s.state.Traces home notes)
    (hsize : s.state.interpreters.size ≤ w.interpreters.size)
    (hfile : home.index < s.state.interpreters.size →
      (w.interpreters.get home).file = (s.state.interpreters.get home).file) :
    w.Traces home notes := by
  intro text st hbegan
  obtain ⟨hlt, hhome⟩ := h text st hbegan
  exact ⟨Nat.lt_of_lt_of_le hlt hsize, (hfile hlt).trans hhome⟩

namespace Watched.Traced

theorem sources (h : s.Traced home) (hw : s.state.SameSources w) :
    Watched.Traced home ⟨w, s.notes⟩ where
  now := h.now.imp (Nat.le_of_eq hw.size.symm) fun _ => hw.file home
  past := h.past

theorem noting (h : s.Traced home) {e : Event} (hnow : s.state.Traces home [e])
    (hnode : ∀ m site n w, e = .node m site n w → w = s.state) :
    Watched.Traced home ⟨s.state, e :: s.notes⟩ where
  now := by
    intro text st hbegan
    rcases List.mem_cons.mp hbegan with rfl | hold
    · exact hnow text st (List.mem_singleton_self _)
    · exact h.now text st hold
  past := by
    intro later m site n w earlier hnotes
    cases later with
    | nil =>
        obtain ⟨he, hearlier⟩ := List.cons.inj hnotes
        rw [← hearlier, hnode m site n w he]
        exact h.now
    | cons e' later =>
        obtain ⟨-, hnotes⟩ := List.cons.inj hnotes
        exact h.past later m site n w earlier hnotes

/-- An interpreter that takes over the file of a unit has begun no other file before. -/
theorem prepare (h : s.Traced home)
    (hsame : home' = home → ∀ text' st, .began home text' st ∈ s.notes → text'.file = text.file) :
    Watched.Traced home ⟨s.state.prepare home' text.unit, s.notes⟩ where
  now := by
    intro text' st hbegan
    obtain ⟨hlt, hfile⟩ := h.now text' st hbegan
    refine ⟨Nat.lt_of_lt_of_eq hlt (Arena.size_set ..).symm, ?_⟩
    by_cases he : home' = home
    · subst he
      rw [World.get_prepare _ _ hlt, hsame rfl text' st hbegan]
      exact congrArg some text.unit_file
    · exact (congrArg Interpreter.file (Arena.get_set_of_ne _ _ he)).trans hfile
  past := h.past

end Watched.Traced

/-- What evaluation leaves behind of the files of interpreters. -/
structure KeepsSources (home : Ref .interpreter) (s t : Watched World Event) : Prop where
  size : s.state.interpreters.size ≤ t.state.interpreters.size
  file : home.index < s.state.interpreters.size →
    (t.state.interpreters.get home).file = (s.state.interpreters.get home).file
  traced : s.Traced home → t.Traced home

namespace KeepsSources

theorem refl (s : Watched World Event) : KeepsSources home s s :=
  ⟨Nat.le_refl _, fun _ => rfl, id⟩

theorem trans {u : Watched World Event} (h : KeepsSources home s t) (h' : KeepsSources home t u) :
    KeepsSources home s u where
  size := Nat.le_trans h.size h'.size
  file hlt := (h'.file (Nat.lt_of_lt_of_le hlt h.size)).trans (h.file hlt)
  traced := h'.traced ∘ h.traced

instance : Course (KeepsSources home) := ⟨fun _ => refl _, trans⟩

theorem sources (hw : s.state.SameSources w) : KeepsSources home s ⟨w, s.notes⟩ :=
  ⟨Nat.le_of_eq hw.size.symm, fun _ => hw.file home, fun h => h.sources hw⟩

theorem noting {e : Event} (hnow : s.state.Traces home [e])
    (hnode : ∀ m site n w, e = .node m site n w → w = s.state) :
    KeepsSources home s ⟨s.state, e :: s.notes⟩ :=
  ⟨Nat.le_refl _, fun _ => rfl, fun h => h.noting hnow hnode⟩

/-- There is an interpreter more. -/
theorem added {i : Interpreter} (hw : w.interpreters = s.state.interpreters.add i) :
    KeepsSources home s ⟨w, s.notes⟩ := by
  have hsize : s.state.interpreters.size ≤ w.interpreters.size := by
    rw [hw, Arena.size_add]
    exact Nat.le_succ _
  have hfile : home.index < s.state.interpreters.size →
      (w.interpreters.get home).file = (s.state.interpreters.get home).file := by
    intro hlt
    rw [hw, Arena.get_add_of_lt _ _ hlt]
  exact ⟨hsize, hfile, fun h => ⟨h.now.imp hsize hfile, h.past⟩⟩

end KeepsSources

/-! ### Units and modules -/

namespace Watching
open Watched

theorem final_of_yields {α : Type} {Go : Watched World Event → Watched World Event → Prop}
    {p : Watching α} (h : Yields Go (fun _ _ => True) p s fun _ _ => True) :
    Go s (final (p s)) := by
  unfold Yields at h
  cases hr : p s with
  | ok a t =>
      rw [hr] at h
      exact h.1
  | error i t =>
      rw [hr] at h
      exact h.1

theorem yields_of_final {α : Type} {Go : Watched World Event → Watched World Event → Prop}
    {p : Watching α} (h : Go s (final (p s))) :
    Yields Go (fun _ _ => True) p s fun _ _ => True := by
  unfold Yields
  cases hr : p s with
  | ok a t =>
      rw [hr] at h
      exact ⟨h, trivial⟩
  | error i t =>
      rw [hr] at h
      exact ⟨h, trivial⟩

variable {run : Site → Stmt → Watching Unit}
  (hrun : ∀ site st, Leads (KeepsSources home) (run site st))
include hrun

/-- Statements begin in units of the file that the interpreter took over. -/
theorem runStatements_keeps (hfile : home' = home → home.index < s.state.interpreters.size ∧
      (s.state.interpreters.get home).file = some text.file) :
    KeepsSources home s (final (runStatements run home' text s)) := by
  refine final_of_yields (runStatements_yields hrun (fun st t ht => ?_)
    (fun e t _ => .sources (.reportRuntime home' e)) (.refl s))
  refine .noting (fun text' st' hbegan => ?_) fun _ _ _ _ he => by cases he
  cases List.mem_singleton.mp hbegan
  obtain ⟨hlt, hhome⟩ := hfile rfl
  exact ⟨Nat.lt_of_lt_of_le hlt ht.size, (ht.file hlt).trans hhome⟩

variable (text) in
/-- The interpreter of an executed unit takes over its file, and no other one does. -/
theorem execute_sources (hhome : home'.index < s.state.interpreters.size) :
    s.state.interpreters.size ≤ (final (execute run home' text s)).state.interpreters.size ∧
    (home' ≠ home → home.index < s.state.interpreters.size →
      ((final (execute run home' text s)).state.interpreters.get home).file =
        (s.state.interpreters.get home).file) ∧
    (s.Traced home →
      (home' = home → text.unit.ok = true →
        ∀ text' st, .began home text' st ∈ s.notes → text'.file = text.file) →
      (final (execute run home' text s)).Traced home) := by
  unfold execute
  by_cases hok : text.unit.ok = true
  · rw [if_pos hok]
    have hsize : (s.state.prepare home' text.unit).interpreters.size = s.state.interpreters.size :=
      Arena.size_set ..
    have hkeeps : KeepsSources home ⟨s.state.prepare home' text.unit, s.notes⟩ (final
        (runStatements run home' text ⟨s.state.prepare home' text.unit, s.notes⟩)) := by
      refine runStatements_keeps hrun fun he => ?_
      subst he
      refine ⟨Nat.lt_of_lt_of_eq hhome hsize.symm, ?_⟩
      rw [World.get_prepare _ _ hhome]
      exact congrArg some text.unit_file
    refine ⟨Nat.le_trans (Nat.le_of_eq hsize.symm) hkeeps.size, fun hne hlt => ?_,
      fun h hsame => hkeeps.traced (h.prepare fun he => hsame he hok)⟩
    have hother : ((s.state.prepare home' text.unit).interpreters.get home) =
        s.state.interpreters.get home := Arena.get_set_of_ne _ _ hne
    exact (hkeeps.file (Nat.lt_of_lt_of_eq hlt hsize.symm)).trans (congrArg Interpreter.file hother)
  · rw [if_neg hok]
    have hlog : s.state.SameSources (s.state.log (.notExecuted text.unit.file
        text.unit.errorCount)) := ⟨rfl, fun _ => rfl⟩
    exact ⟨Nat.le_refl _, fun _ _ => rfl, fun h _ => h.sources hlog⟩

/-- A module has an interpreter of its own, which begins nothing but the unit of its file. -/
theorem loadModule_keeps (levels : Nat) (loader : Ref .loader) (token : Token) (name : String)
    (place : RealPath) (source : String) :
    Leads (KeepsSources home) (loadModule levels run loader token name place source) := by
  intro s
  let enrolled := s.state.enroll name loader place
  let text := enrolled.text levels s.state.interpreters.next place.text source
  let compiled := (enrolled.compile levels s.state.interpreters.next place.text source).2
  obtain ⟨console, henroll⟩ := s.state.enroll_eq name loader place
  have henrolled : KeepsSources home s ⟨s.state.enroll name loader place, s.notes⟩ :=
    .added (by rw [henroll])
  have hsources : (s.state.enroll name loader place).SameSources compiled := .compile ..
  have hcompiled : KeepsSources home s ⟨compiled, s.notes⟩ := henrolled.trans (.sources hsources)
  have hnew : s.state.interpreters.next.index < compiled.interpreters.size := by
    rw [hsources.size, henroll]
    exact Nat.lt_of_lt_of_eq (Nat.lt_succ_self _) (Arena.size_add ..).symm
  obtain ⟨hsize, hfile, htraced⟩ := execute_sources text hrun (s := ⟨compiled, s.notes⟩) hnew
  have hexecuted : KeepsSources home s
      (final (execute run s.state.interpreters.next text ⟨compiled, s.notes⟩)) := by
    refine ⟨Nat.le_trans hcompiled.size hsize, fun hlt => ?_, fun h => ?_⟩
    · have hne : s.state.interpreters.next ≠ home := fun he => Nat.lt_irrefl _ (he ▸ hlt)
      exact (hfile hne (Nat.lt_of_lt_of_le hlt hcompiled.size)).trans (hcompiled.file hlt)
    · refine htraced (hcompiled.traced h) fun he _ text' st hbegan => ?_
      obtain ⟨hlt, -⟩ := h.now text' st hbegan
      exact (Nat.lt_irrefl _ (he ▸ hlt)).elim
  have hforgotten : ∀ t : Watched World Event, KeepsSources home t
      ⟨t.state.updateLoader loader fun l => l.forget place, t.notes⟩ :=
    fun _ => .sources ⟨rfl, fun _ => rfl⟩
  refine yields_of_final ?_
  change KeepsSources home s (final (EStateM.bind (execute run s.state.interpreters.next text) _
    ⟨compiled, s.notes⟩))
  unfold EStateM.bind
  cases hr : execute run s.state.interpreters.next text ⟨compiled, s.notes⟩ with
  | error i t =>
      rw [hr] at hexecuted
      exact hexecuted
  | ok completion t =>
      rw [hr] at hexecuted
      cases completion with
      | completed => exact hexecuted
      | rejected => exact hexecuted.trans (hforgotten t)
      | failed e => exact hexecuted.trans (hforgotten t)

end Watching

instance : Watching.Throughout (KeepsSources home) where
  refl := .refl
  inside hw := .sources ⟨congrArg Arena.size hw.interpreters, fun r =>
    congrArg (fun a => (Arena.get a r).file) hw.interpreters⟩
  printed _ _ := .sources ⟨rfl, fun _ => rfl⟩
  opened _ _ _ := .noting (fun _ _ hbegan => nomatch List.mem_singleton.mp hbegan)
    fun _ _ _ _ he => by cases he
  marked _ _ _ _ := by
    refine .noting (fun _ _ hbegan => nomatch List.mem_singleton.mp hbegan) fun _ _ _ _ he => ?_
    cases he
    rfl
  loaded := Watching.loadModule_keeps

/-! ### Sessions -/

/-- The step gives the interpreter no accepted unit of another file than the one before. -/
def SessionStep.KeepsFile (home : Ref .interpreter) (w : World) : SessionStep → Prop
  | .run home' file source => home' = home →
      (w.text nestingLimit home' file source).unit.ok = true →
      ∀ file' ∈ (w.interpreters.get home).file, file' = file
  | .execute home' text => home' = home → text.unit.ok = true →
      ∀ file' ∈ (w.interpreters.get home).file, file' = text.file
  | _ => True

instance (home : Ref .interpreter) (w : World) (step : SessionStep) :
    Decidable (step.KeepsFile home w) :=
  match step with
  | .run home' file source => inferInstanceAs (Decidable (home' = home →
      (w.text nestingLimit home' file source).unit.ok = true →
      ∀ file' ∈ (w.interpreters.get home).file, file' = file))
  | .execute home' text => inferInstanceAs (Decidable (home' = home → text.unit.ok = true →
      ∀ file' ∈ (w.interpreters.get home).file, file' = text.file))
  | .addLoader .. | .addInterpreter .. | .compile .. | .resetReporter .. | .arrange .. =>
      .isTrue trivial

/-- Nor does any other step after it. -/
def Session.KeepsFile (home : Ref .interpreter) : World → List SessionStep → Prop
  | _, [] => True
  | w, step :: steps => step.KeepsFile home w ∧ KeepsFile home (step.play w).2 steps

instance Session.decidableKeepsFile (home : Ref .interpreter) :
    (w : World) → (steps : List SessionStep) → Decidable (Session.KeepsFile home w steps)
  | _, [] => .isTrue trivial
  | w, step :: steps =>
      let _ := decidableKeepsFile home (step.play w).2 steps
      inferInstanceAs (Decidable (step.KeepsFile home w ∧ _))

theorem Watching.executeText_traced (h : s.Traced home)
    (hhome : home'.index < s.state.interpreters.size)
    (hkeeps : home' = home → text.unit.ok = true →
      ∀ file ∈ (s.state.interpreters.get home).file, file = text.file) :
    (Watching.executeText home' text s).2.Traced home := by
  have hrun : ∀ site st, Watching.Leads (KeepsSources home)
      (Watching.statement grantedRounds (nestingLimit / 2) site st) :=
    (Watching.levelLeads grantedRounds (nestingLimit / 2)).statement
  obtain ⟨-, -, htraced⟩ := Watching.execute_sources text hrun hhome
  unfold Watching.executeText
  rw [Outcome.ofResult_snd]
  refine htraced h fun he hok text' st hbegan => ?_
  obtain ⟨-, hfile⟩ := h.now text' st hbegan
  exact hkeeps he hok text'.file hfile

theorem SessionStep.watch_traced (step : SessionStep) (h : s.Traced home)
    (hkeeps : step.KeepsFile home s.state) : (step.watch s).2.Traced home := by
  cases step with
  | addLoader searchPaths => exact h.sources ⟨rfl, fun _ => rfl⟩
  | addInterpreter unit loader =>
      obtain ⟨console, hadd⟩ := s.state.addInterpreter_eq unit loader
      have hmore : KeepsSources home s ⟨s.state.addInterpreter unit loader, s.notes⟩ :=
        .added (by rw [hadd])
      exact hmore.traced h
  | compile home' file source => exact h.sources (.compile ..)
  | run home' file source =>
      unfold watch
      by_cases hhome : home'.index < s.state.interpreters.size
      · simp only [hhome, if_true]
        have hsame : s.state.SameSources (s.state.compile nestingLimit home' file source).2 :=
          .compile ..
        refine Watching.executeText_traced (h.sources hsame)
          (Nat.lt_of_lt_of_eq hhome hsame.size.symm) fun he hok file' hfile => ?_
        exact hkeeps he hok file' ((hsame.file home).symm.trans hfile)
      · simp only [hhome, if_false]
        exact h
  | execute home' text =>
      unfold watch
      by_cases hhome : home'.index < s.state.interpreters.size
      · simp only [hhome, if_true]
        exact Watching.executeText_traced h hhome hkeeps
      · simp only [hhome, if_false]
        exact h
  | resetReporter home' =>
      exact h.sources (.updateInterpreter home' (f := fun i => { i with
        reporter := i.reporter.reset }) fun _ => rfl)
  | arrange files workingDirectory console now => exact h.sources ⟨rfl, fun _ => rfl⟩

theorem Session.watch_traced {steps : List SessionStep} (h : Session.KeepsFile home {} steps) :
    (Session.watch steps).Traced home := by
  have hall : ∀ (steps : List SessionStep) (s : Watched World Event), s.Traced home →
      Session.KeepsFile home s.state steps →
      (steps.foldl (fun s step => (step.watch s).2) s).Traced home := by
    intro steps
    induction steps with
    | nil => exact fun s h _ => h
    | cons step steps ih =>
        intro s h hkeeps
        have hplayed : (step.watch s).2.state = (step.play s.state).2 :=
          congrArg Prod.snd (step.watch_erases s)
        exact ih _ (step.watch_traced h hkeeps.1) (hplayed ▸ hkeeps.2)
  refine hall steps ⟨{}, []⟩ ⟨nofun, fun later _ _ _ _ _ hnotes => ?_⟩ h
  exact nomatch (List.append_eq_nil_iff.mp hnotes.symm).2

theorem World.findModule_first (hfile : (w.interpreters.get home).file = some text.file)
    (name : String) :
    w.files.First (moduleFile name).names (text.directories w (w.interpreters.get home).loader)
      (w.findModule home name) := by
  have hdirectories : w.moduleDirectories home =
      text.directories w (w.interpreters.get home).loader := by
    unfold moduleDirectories UnitText.directories
    simp only [hfile]
  unfold findModule
  rw [← hdirectories]
  exact FileTree.first_firstFile _ _ _

/-- As long as a session gives an interpreter no accepted unit of another file, every import that the
interpreter reaches, wherever it is called from, looks for its file first in the directory of the
file of the unit in which it is written, then in the search paths and last in the working directory,
and takes the first file there is. -/
theorem imports_look_from_their_unit {steps : List SessionStep} {home : Ref .interpreter}
    (hkeeps : Session.KeepsFile home {} steps) {later earlier : List Event} {scope : Ref .scope}
    {keyword name : Token} {as : Option Token} {w : World}
    (h : (Session.watch steps).notes =
      later ++ .node .reached ⟨home, scope⟩ (.stmt (.importModule keyword name as)) w :: earlier) :
    ∃ text st, .began home text st ∈ earlier ∧ text.unit.ok = true ∧ st ∈ text.unit.statements ∧
      (∃ frames, Within ⟨[], .stmt st⟩ ⟨frames, .stmt (.importModule keyword name as)⟩) ∧
      w.files.First (World.moduleFile (importedModule name)).names
        (text.directories w (w.interpreters.get home).loader)
        (w.findModule home (importedModule name)) := by
  obtain ⟨hgood, frames, hat⟩ := Session.noted (fun hc : False => hc.elim) h
  obtain ⟨text, st, hbegan, hwithin⟩ := hat.begun
  obtain ⟨hok, hst⟩ := hgood.told.accepted hbegan
  -- The interpreter may have run other units since, but none of another file.
  obtain ⟨-, hfile⟩ := (Session.watch_traced hkeeps).past _ _ _ _ _ _ h text st hbegan
  exact ⟨text, st, hbegan, hok, hst, ⟨frames, hwithin⟩, World.findModule_first hfile _⟩

/-- A function with an import is called in the module of another directory. -/
def Session.calledElsewhere : List SessionStep :=
  let m : FileEntry := .file "".toUTF8
  let tree := ((({} : FileTree).write ⟨["", "a", "m.lox"]⟩ m).write ⟨["", "b", "m.lox"]⟩ m).write
    ⟨["", "b", "n.lox"]⟩ (.file "fun call(g) \x7b g(); \x7d".toUTF8)
  [.addLoader [], .addInterpreter "__main__" ⟨0⟩, .arrange tree ⟨[""]⟩ {} 0,
    .run ⟨0⟩ "a/x.lox" "fun f() \x7b import m; \x7d import \"b/n\" as n; n.call(f);"]

/-- Whether an import is reached that finds a file at a place. -/
def Event.importsFrom (place : RealPath) : Event → Bool
  | .node .reached site (.stmt (.importModule _ name _)) w =>
      match w.findModule site.home (importedModule name) with
      | .entry place' _ => place' = place && site.home.index == 0
      | _ => false
  | _ => false

/-- The import is one of the directory in which it is written. -/
theorem imports_look_from_their_unit_called :
    Session.KeepsFile ⟨0⟩ {} Session.calledElsewhere ∧
    ∃ later scope keyword name as w earlier text st e,
      (Session.watch Session.calledElsewhere).notes =
        later ++ .node .reached ⟨⟨0⟩, scope⟩ (.stmt (.importModule keyword name as)) w :: earlier ∧
      .began ⟨0⟩ text st ∈ earlier ∧
      w.findModule ⟨0⟩ (importedModule name) = .entry ⟨["", "a", "m.lox"]⟩ e ∧
      w.files.First (World.moduleFile (importedModule name)).names
        (text.directories w (w.interpreters.get ⟨0⟩).loader)
        (w.findModule ⟨0⟩ (importedModule name)) := by
  have hkeeps : Session.KeepsFile ⟨0⟩ {} Session.calledElsewhere := by decide +kernel
  have himports : (Session.watch Session.calledElsewhere).notes.any
      (Event.importsFrom ⟨["", "a", "m.lox"]⟩) = true := by decide +kernel
  obtain ⟨event, hevent, hcheck⟩ := List.any_eq_true.mp himports
  obtain ⟨later, earlier, hnotes⟩ := List.append_of_mem hevent
  unfold Event.importsFrom at hcheck
  split at hcheck
  · rename_i site keyword name as w
    split at hcheck
    · rename_i place e hfound
      obtain ⟨hplace, hhome⟩ := Bool.and_eq_true_iff.mp hcheck
      obtain ⟨⟨home⟩, scope⟩ := site
      cases of_decide_eq_true hplace
      cases eq_of_beq hhome
      obtain ⟨text, st, hbegan, -, -, -, hfirst⟩ := imports_look_from_their_unit hkeeps hnotes
      exact ⟨hkeeps, later, scope, keyword, name, as, w, earlier, text, st, e, hnotes, hbegan, hfound,
        hfirst⟩
    · cases hcheck
  · cases hcheck

end
end Treewalk
