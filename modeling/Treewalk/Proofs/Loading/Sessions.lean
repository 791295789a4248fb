import Treewalk.Proofs.Loading.Runs
import Treewalk.Proofs.Run.Environments

/-!
# Modules in sessions

On one loader no file is loaded twice at a time, nor twice in a run, nor ever again unless it failed;
so imports end even where they go round in circles. Whatever stays registered after a step was run to
its end, or was cut by what is no runtime error.
-/
namespace Treewalk

namespace Loading
variable {one : Prop}

/-- Executes a unit outside all loads. -/
def executeUnit (home : Ref .interpreter) (u : CompiledUnit) (s : Watched World LoadEvent) :
    Outcome × Watched World LoadEvent :=
  Outcome.ofResult u (execute (statement grantedRounds (nestingLimit / 2) []) home u
    ⟨s.state, .run :: s.notes⟩)

theorem executeUnit_erases (home : Ref .interpreter) (u : CompiledUnit)
    (s : Watched World LoadEvent) :
    ((executeUnit home u s).1, (executeUnit home u s).2.state) = s.state.execute home u := by
  have herases := execute_erases ((Loading.erases grantedRounds (nestingLimit / 2)).statement [])
    home u ⟨s.state, .run :: s.notes⟩
  rw [World.execute_eq, ← herases]
  unfold executeUnit
  cases execute (statement grantedRounds (nestingLimit / 2) []) home u
      ⟨s.state, .run :: s.notes⟩ with
  | ok completion t => rfl
  | error i t => cases i <;> rfl

/-- A unit that completes, or ends with a signal, has seen no load fail. -/
theorem executeUnit_finishes (home : Ref .interpreter) (u : CompiledUnit)
    {s : Watched World LoadEvent} (h : InLoads one [] s) :
    Finishes one [] [] (.run :: s.notes) (fun _ => u.ok = true ∧ True)
      (execute (statement grantedRounds (nestingLimit / 2) []) home u
        ⟨s.state, .run :: s.notes⟩) := by
  have hrun : InLoads one [] ⟨s.state, .run :: s.notes⟩ := h.run
  have hall := (levelKeeps one grantedRounds (nestingLimit / 2)).statement []
  refine execute_finishes hrun fun t site ht hin => ?_
  have hunit := Keeps.forM (hall site) u.statements t hin (ht ▸ .run)
  rw [ht] at hunit
  exact hunit

theorem executeUnit_inLoads (home : Ref .interpreter) (u : CompiledUnit)
    {s : Watched World LoadEvent} (h : InLoads one [] s) :
    InLoads one [] (executeUnit home u s).2 := by
  have hfinish := executeUnit_finishes home u h
  unfold executeUnit
  cases hr : execute (statement grantedRounds (nestingLimit / 2) []) home u
      ⟨s.state, .run :: s.notes⟩ with
  | ok completion t =>
      rw [hr] at hfinish
      cases completion with
      | completed => exact hfinish.1.inLoads
      | _ => exact hfinish.inLoads
  | error i t =>
      rw [hr] at hfinish
      cases i with
      | signal c => exact hfinish.1.inLoads
      | error e => exact False.elim hfinish
      | _ => exact hfinish.inLoads

end Loading

namespace SessionStep

/-- All interpreters get the first loader. -/
def OnOneLoader : SessionStep → Prop
  | .addInterpreter _ loader => loader = ⟨0⟩
  | _ => True

/-- A step with notes of loads. -/
def load (s : Watched World LoadEvent) (step : SessionStep) :
    Option Outcome × Watched World LoadEvent :=
  match step with
  | .run home file source =>
      if home.index < s.state.interpreters.size then
        let r := s.state.compile nestingLimit home file source
        let r := Loading.executeUnit home r.1 { s with state := r.2 }
        (some r.1, r.2)
      else (none, s)
  | .execute home text =>
      if home.index < s.state.interpreters.size then
        let r := Loading.executeUnit home text.unit s
        (some r.1, r.2)
      else (none, s)
  | step =>
      let r := step.play s.state
      (r.1, { s with state := r.2 })

theorem load_erases (s : Watched World LoadEvent) (step : SessionStep) :
    ((step.load s).1, (step.load s).2.state) = step.play s.state := by
  cases step with
  | run home file source =>
      unfold load play
      by_cases hhome : home.index < s.state.interpreters.size
      · simp only [hhome, if_true]
        unfold World.run
        rw [← Loading.executeUnit_erases home (s.state.compile nestingLimit home file source).1
          { s with state := (s.state.compile nestingLimit home file source).2 }]
      · simp only [hhome, if_false]
  | execute home text =>
      unfold load play
      by_cases hhome : home.index < s.state.interpreters.size
      · simp only [hhome, if_true]
        rw [← Loading.executeUnit_erases home text.unit s]
      · simp only [hhome, if_false]
  | _ => rfl

/-- Between two steps no load is going on. -/
theorem load_inLoads {one : Prop} {s : Watched World LoadEvent} {step : SessionStep}
    (h : InLoads one [] s) (hstep : one → step.OnOneLoader) : InLoads one [] (step.load s).2 := by
  cases step with
  | addLoader searchPaths =>
      refine ⟨?_, h.stack⟩
      apply h.toRegistry.of_caches
      case hhomes => exact h.single
      case hmodules => rfl
      case hsize => exact Nat.le_of_lt (Nat.lt_of_lt_of_eq (Nat.lt_succ_self _) (Arena.size_add ..).symm)
      case hcaches => exact s.state.caches_addLoader searchPaths
      case hfiles => exact List.forall_mem_nil _
  | addInterpreter unit loader =>
      obtain ⟨console, hadd⟩ := s.state.addInterpreter_eq unit loader
      change InLoads one [] ⟨s.state.addInterpreter unit loader, s.notes⟩
      rw [hadd]
      refine ⟨?_, h.stack⟩
      apply h.toRegistry.of_caches
      case hhomes =>
        intro ho home
        rw [Arena.get_add]
        split
        · exact hstep ho
        · exact h.single ho home
      case hmodules => rfl
      case hsize => exact Nat.le_refl _
      case hcaches => exact fun _ => rfl
      case hfiles => exact List.forall_mem_nil _
  | compile home file source => exact h.sameObjects (s.state.sameObjects_compile _ _ _ _)
  | run home file source =>
      unfold load
      by_cases hhome : home.index < s.state.interpreters.size
      · simp only [hhome, if_true]
        exact Loading.executeUnit_inLoads home _
          (h.sameObjects (s.state.sameObjects_compile nestingLimit home file source))
      · simp only [hhome, if_false]
        exact h
  | execute home text =>
      unfold load
      by_cases hhome : home.index < s.state.interpreters.size
      · simp only [hhome, if_true]
        exact Loading.executeUnit_inLoads home _ h
      · simp only [hhome, if_false]
        exact h
  | resetReporter home =>
      exact h.sameObjects (s.state.sameObjects_updateInterpreter home
        (f := fun i => { i with reporter := i.reporter.reset }) fun _ => ⟨rfl, rfl⟩)
  | arrange files workingDirectory console now =>
      refine ⟨?_, h.stack⟩
      apply h.toRegistry.of_caches
      case hhomes => exact h.single
      case hmodules => rfl
      case hsize => exact Nat.le_refl _
      case hcaches => exact fun _ => rfl
      case hfiles => exact List.forall_mem_nil _

end SessionStep

namespace Session

/-- A session with notes of loads, latest first. -/
def load (steps : List SessionStep) : Watched World LoadEvent :=
  steps.foldl (fun s step => (step.load s).2) ⟨{}, []⟩

theorem load_state (steps : List SessionStep) : (load steps).state = play steps :=
  (List.foldl_hom Watched.state fun s step => (congrArg Prod.snd (step.load_erases s)).symm).symm

theorem foldl_inLoads {one : Prop} {steps : List SessionStep} {s : Watched World LoadEvent}
    (h : InLoads one [] s) (hsteps : one → ∀ step ∈ steps, step.OnOneLoader) :
    InLoads one [] (steps.foldl (fun s step => (step.load s).2) s) :=
  List.foldlRecOn steps _ (motive := InLoads one []) h fun _ h step hstep =>
    SessionStep.load_inLoads h fun ho => hsteps ho step hstep

/-- A world without modules and registrations. -/
theorem inLoads_start {one : Prop} {w : World} (hsupplied : one → 0 < w.loaders.size)
    (hmodules : w.interpreters = {}) (hcaches : ∀ r, (w.loaders.get r).cache = []) :
    InLoads one [] ⟨w, []⟩ := by
  refine ⟨?_, rfl⟩
  constructor
  case supplied => exact hsupplied
  case single => exact fun _ _ => by rw [hmodules]; rfl
  case holds => exact fun _ => ⟨.nil, nofun, nofun, nofun⟩
  case going => exact nofun
  case mentioned => exact fun _ ⟨_, he, _⟩ => nomatch he
  case started => exact nofun
  case cached =>
    intro r p m hm
    rw [hcaches] at hm
    cases hm
  case told => exact .nil

end Session

/-- There are no more loads of different files than there are files. -/
theorem FileTree.length_le_places {t : FileTree} {loads : List Load}
    (hdistinct : (loads.map Load.place).Nodup) (hfiles : ∀ l ∈ loads, l.place ∈ t.places) :
    loads.length ≤ t.places.length := by
  have hsub : loads.map Load.place ⊆ t.places := by
    intro p hp
    obtain ⟨l, hl, rfl⟩ := List.mem_map.mp hp
    exact hfiles l hl
  have hle := (List.Nodup.subperm hdistinct hsub).length_le
  rw [List.length_map] at hle
  exact hle

/-- On one loader, whatever is imported however often and in whatever circles, and whatever becomes
of the files between the steps: at every moment the files of the loads that have started and not
ended are different and registered, so that there are no more of them than there are files; a load
starts only where nothing is registered; and if a file was loaded before, that was in an earlier run,
and that load failed. -/
theorem modules_load_once {steps : List SessionStep} (searchPaths : List WrittenPath)
    (h : ∀ step ∈ steps, step.OnOneLoader) :
    (Session.load (.addLoader searchPaths :: steps)).state =
      Session.play (.addLoader searchPaths :: steps) ∧
    (∀ later loads w earlier,
      (Session.load (.addLoader searchPaths :: steps)).notes =
        later ++ .reached loads w :: earlier →
      loads = openLoads earlier ∧ w.Holds loads ∧ loads.length ≤ w.files.places.length) ∧
    ∀ later loads l w earlier,
      (Session.load (.addLoader searchPaths :: steps)).notes =
        later ++ .started loads l w :: earlier →
      loads = openLoads earlier ∧ w.Holds loads ∧ (w.loaders.get ⟨0⟩).cached? l.place = none ∧
        (l :: loads).length ≤ w.files.places.length ∧
        ∀ middle loads' l' w' before, earlier = middle ++ .started loads' l' w' :: before →
          l'.place = l.place → l'.Failed earlier ∧ .run ∈ middle := by
  have hstart : InLoads True [] ⟨({} : World).addLoader searchPaths, []⟩ :=
    Session.inLoads_start (fun _ => Nat.zero_lt_one) rfl
      fun r => (World.caches_addLoader {} searchPaths r).trans rfl
  have hall := (Session.foldl_inLoads hstart fun _ => h).told
  change LoadsTold True (Session.load (.addLoader searchPaths :: steps)).notes at hall
  refine ⟨Session.load_state _, fun later loads w earlier hnotes => ?_,
    fun later loads l w earlier hnotes => ?_⟩
  · rw [hnotes] at hall
    obtain ⟨hopen, hholds⟩ := hall.split
    exact ⟨hopen, hholds trivial,
      FileTree.length_le_places (hholds trivial).distinct (hholds trivial).files⟩
  · rw [hnotes] at hall
    obtain ⟨hopen, hfits⟩ := hall.split
    obtain ⟨hholds, hfirst, hnone, hplace, hunharmed, -, hfailed⟩ := hfits trivial
    refine ⟨hopen, hholds, hnone, ?_, ?_⟩
    · exact FileTree.length_le_places (List.nodup_cons.mpr ⟨hholds.not_mem hnone, hholds.distinct⟩)
        (List.forall_mem_cons.mpr ⟨hplace, hholds.files⟩)
    · rintro middle loads' l' w' before rfl hsame
      have hl' := hfailed loads' l' w' (List.mem_append_right _ (List.mem_cons_self ..)) hsame
      refine ⟨hl', by_contra fun hrun => ?_⟩
      -- Otherwise the load failed before it started.
      obtain ⟨e, he, hfails⟩ := hunharmed.failed hrun hl'
      rcases List.mem_cons.mp he with rfl | he
      · nomatch hfails
      · have hbefore : LoadsTold True ((later ++ .started loads l w :: middle) ++
            .started loads' l' w' :: before) := by
          rw [List.append_assoc]
          exact hall
        obtain ⟨-, -, -, -, -, hfresh, -⟩ := hbefore.split.2 trivial
        exact hfresh l' (Load.Failed.mentioned ⟨e, he, hfails⟩) rfl

/-- Module files in the root directory, and a text that is run on the first loader. -/
def Session.withModules (files : List (String × String)) (source : String) : List SessionStep :=
  let tree := files.foldl (fun t f => t.write ⟨["", f.1]⟩ (.file f.2.toUTF8)) {}
  [.addInterpreter "__main__" ⟨0⟩, .arrange tree ⟨[""]⟩ {} 0, .run ⟨0⟩ "<lox>" source]

/-- Two modules that import each other. -/
theorem modules_load_once_circle :
    (∀ step ∈ Session.withModules [("a.lox", "import b;"), ("b.lox", "import a;")] "import a;",
      step.OnOneLoader) ∧
    ∀ later loads l w earlier,
      (Session.load (.addLoader [] :: Session.withModules
        [("a.lox", "import b;"), ("b.lox", "import a;")] "import a;")).notes =
          later ++ .started loads l w :: earlier →
      w.Holds loads ∧ (w.loaders.get ⟨0⟩).cached? l.place = none ∧
        (l :: loads).length ≤ w.files.places.length := by
  have h : ∀ step ∈ Session.withModules [("a.lox", "import b;"), ("b.lox", "import a;")]
      "import a;", step.OnOneLoader := by
    intro step hstep
    unfold Session.withModules at hstep
    simp only [List.mem_cons, List.not_mem_nil, or_false] at hstep
    rcases hstep with rfl | rfl | rfl
    · rfl
    · trivial
    · trivial
  refine ⟨h, fun later loads l w earlier hnotes => ?_⟩
  obtain ⟨-, hholds, hnone, hless, -⟩ := (modules_load_once [] h).2.2 later loads l w earlier hnotes
  exact ⟨hholds, hnone, hless⟩

/-- Whatever is registered after a session, however its steps ended, was loaded: either all
statements of its unit were executed to their end, or an interrupt that is no runtime error went
through the load. -/
theorem cached_modules_ran (steps : List SessionStep) :
    (Session.load steps).state = Session.play steps ∧
    ∀ r p m, (p, m) ∈ ((Session.play steps).loaders.get r).cache →
      (∃ later u earlier,
        (Session.load steps).notes = later ++ .ended ⟨r, p, m⟩ (.completed u) :: earlier ∧
        u.ok = true ∧ Load.executions ⟨r, p, m⟩ earlier = u.statements.reverse) ∨
      ∃ i, .ended ⟨r, p, m⟩ (.cut i) ∈ (Session.load steps).notes ∧ ∀ e, i ≠ .error e := by
  have hall : InLoads False [] (Session.load steps) :=
    Session.foldl_inLoads (Session.inLoads_start nofun rfl fun r => rfl) nofun
  refine ⟨Session.load_state steps, fun r p m hm => ?_⟩
  rw [← Session.load_state] at hm
  have hover := (hall.cached r p m hm).resolve_left List.not_mem_nil
  have htold := hall.told
  rcases hover with ⟨u, hu⟩ | ⟨i, hi⟩
  · obtain ⟨later, earlier, hnotes⟩ := List.append_of_mem hu
    rw [hnotes] at htold
    exact .inl ⟨later, u, earlier, hnotes, htold.split⟩
  · obtain ⟨later, earlier, hnotes⟩ := List.append_of_mem hi
    rw [hnotes] at htold
    exact .inr ⟨i, hi, htold.split⟩

end Treewalk
