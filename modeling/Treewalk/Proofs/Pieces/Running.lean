import Treewalk.Proofs.Twins.Rejection
import Treewalk.Proofs.Pieces.Joining

/-!
# Running in pieces

A text whose statements begin with those of a completed one runs as the rest of them does where the
completed one ended. The worlds are the same but for the error output, for the constants of an
interpreter while a unit is prepared, and for the lines of code that stands further down.
-/
namespace Treewalk

namespace World
variable {w : World} {home : Ref .interpreter} {file source : String}

/-- The same world with other error output. -/
def withErrors (w : World) (err : String) : World :=
  { w with console := { w.console with err := err } }

@[simp] theorem globals_withErrors (w : World) (err : String) (home : Ref .interpreter) :
    (w.withErrors err).globals home = w.globals home := rfl

theorem alike_withErrors (w : World) (err : String) : w.Alike (w.withErrors err) :=
  .intro rfl rfl rfl rfl (fun _ => rfl) (fun _ => rfl) (fun _ => rfl) fun _ => rfl

/-- The same world where an interpreter has other constants. -/
def withConstants (w : World) (home : Ref .interpreter) (constants : List String) : World :=
  w.updateInterpreter home fun i => { i with constants := constants }

@[simp] theorem withErrors_interpreters (w : World) (err : String) :
    (w.withErrors err).interpreters = w.interpreters := rfl

/-- A source text is accepted for an interpreter. -/
def Accepts (w : World) (home : Ref .interpreter) (file source : String) : Prop :=
  (w.compile nestingLimit home file source).1.ok = true

instance (w : World) (home : Ref .interpreter) (file source : String) :
    Decidable (w.Accepts home file source) := inferInstanceAs (Decidable (_ = true))

theorem Accepts.unit (h : w.Accepts home file source) :
    (w.text nestingLimit home file source).unit.ok = true := h

theorem accepts_of_makes {statements : List Stmt} {constants : List String}
    (h : (w.text nestingLimit home file source).Makes statements constants) :
    w.Accepts home file source := h.ok

theorem Accepts.below (h : w.Accepts home file source) (n : Nat) :
    (w.text nestingLimit home file (lineFeeds n ++ source)).Makes
      ((w.text nestingLimit home file source).unit.statements.map (Stmt.down n))
      (w.text nestingLimit home file source).unit.constants := UnitText.below_makes h.unit n

theorem mem_globals_text (w : World) (levels : Nat) (home : Ref .interpreter)
    (file source x : String) : x ∈ (w.text levels home file source).globals ↔
      w.scopes.contains (w.globals home) x = true := Bindings.mem_names _ _

theorem file_text (w : World) (levels : Nat) (home : Ref .interpreter) (file source : String) :
    (w.text levels home file source).unit.file = file := UnitText.unit_file _

/-- Without errors only the log is written. -/
theorem publish_logs (home : Ref .interpreter) {notices : List Notice}
    (h : countErrors notices = 0) (w : World) : ∃ err,
    notices.foldl (fun w notice => w.publish home notice) w = w.withErrors err := by
  induction notices generalizing w with
  | nil => exact ⟨w.console.err, rfl⟩
  | cons notice notices ih =>
      cases notice with
      | error d =>
          rw [countErrors_error] at h
          cases h
      | log l =>
          rw [countErrors_log] at h
          obtain ⟨err, hrest⟩ := ih h (w.log l)
          refine ⟨err, hrest.trans ?_⟩
          unfold withErrors log Console.log
          split <;> rfl

theorem compile_accepted (h : w.Accepts home file source) : ∃ err,
    (w.compile nestingLimit home file source).2 = w.withErrors err := by
  refine publish_logs home ?_ w
  rw [CompiledUnit.countErrors_ofSource]
  exact beq_iff_eq.mp h

/-- An accepted text is run where its unit was prepared. -/
theorem run_prepared (h : w.Accepts home file source) : ∃ err,
    w.run home file source =
      let u := (w.text nestingLimit home file source).unit
      Outcome.ofResult u (Eval.runStatements (Eval.statement grantedRounds (nestingLimit / 2)) home
        u.statements ((w.withErrors err).prepare home u)) := by
  obtain ⟨err, hcompiled⟩ := compile_accepted h
  refine ⟨err, (run_accepted h).trans ?_⟩
  dsimp only
  rw [hcompiled, compile_fst]
  rfl

end World

/-- While an accepted unit runs. -/
theorem Good.underway {s : Watched World Event} {home : Ref .interpreter} {text : UnitText}
    (h : Good False 0 s) (hhome : home.index < s.state.interpreters.size)
    (hok : text.unit.ok = true) {first rest : List Stmt}
    (he : text.unit.statements = first ++ rest) {t : World}
    (hrun : first.forM (Eval.statement grantedRounds (nestingLimit / 2)
      ⟨home, s.state.globals home⟩) (s.state.prepare home text.unit) = .ok () t) :
    ∃ notes, Underway False 0 home text (s.state.globals home)
      (fun x => s.state.scopes.contains (s.state.globals home) x = true) first ⟨t, notes⟩ := by
  have hstart := (Watching.underway_prepare h hhome (Nat.zero_le _) hok fun hc => hc.elim).2
  have hstatements := Watching.statements_safe
    (Watching.levelSafe False grantedRounds (nestingLimit / 2)).statement (Nat.zero_le _) hok first
    he hstart
  have herases : Watched.forget (first.forM (Watching.begin
      (Watching.statement grantedRounds (nestingLimit / 2)) ⟨home, s.state.globals home⟩ text)
      ⟨s.state.prepare home text.unit, s.notes⟩) = .ok () t := by
    rw [← hrun]
    exact Watched.Erases.forM (fun st => Watched.Erases.noting _
      ((Watching.erases grantedRounds (nestingLimit / 2)).statement _ st)) first _
  unfold Safe at hstatements
  generalize first.forM (Watching.begin (Watching.statement grantedRounds (nestingLimit / 2))
    ⟨home, s.state.globals home⟩ text) ⟨s.state.prepare home text.unit, s.notes⟩ = r
    at hstatements herases
  cases r with
  | ok a t' =>
      cases herases
      exact ⟨t'.notes, hstatements.2⟩
  | error i t' => cases herases

/-! ### Statements one after the other -/

namespace Eval
variable {run : Site → Stmt → Eval Unit} {home : Ref .interpreter} {first : List Stmt} {w t : World}

theorem runStatements_append (rest : List Stmt)
    (h : first.forM (run ⟨home, w.globals home⟩) w = .ok () t)
    (hglobals : t.globals home = w.globals home) :
    runStatements run home (first ++ rest) w = runStatements run home rest t := by
  have hforM : (first ++ rest).forM (run ⟨home, w.globals home⟩) w =
      rest.forM (run ⟨home, t.globals home⟩) t := by
    rw [hglobals]
    exact Watched.forM_append h rest
  unfold runStatements
  rw [hforM]

/-- What stands behind an interrupt is not run. -/
theorem runStatements_interrupted (rest : List Stmt) {i : Interrupt}
    (h : first.forM (run ⟨home, w.globals home⟩) w = .error i t) :
    runStatements run home (first ++ rest) w = runStatements run home first w := by
  have hforM : (first ++ rest).forM (run ⟨home, w.globals home⟩) w = .error i t := by
    have happend : (first ++ rest).forM (run ⟨home, w.globals home⟩) w =
        (first.forM (run ⟨home, w.globals home⟩) >>= fun _ =>
          rest.forM (run ⟨home, w.globals home⟩)) w := congrFun List.forM_append w
    rw [happend, bind_run, h]
  unfold runStatements
  rw [hforM, h]

end Eval

/-! ### Outcomes -/

/-- The same outcome of another unit, an error some lines further down. -/
def Outcome.elsewhere (u : CompiledUnit) (n : Nat) : Outcome → Outcome
  | .ended _ (.failed e) => .ended u (.failed { e with token := e.token.down n })
  | .ended _ completion => .ended u completion
  | o => o

/-- Related results are the same outcome, an error perhaps further down. -/
theorem Likeness.Outcomes.elsewhere {d : Likeness}
    {r r' : EStateM.Result Interrupt World Eval.Completion} (h : d.Outcomes d.Completions r r')
    (u u' : CompiledUnit) : ∃ n, d.moved n ∧
      (Outcome.ofResult u' r').1 = (Outcome.ofResult u r).1.elsewhere u' n ∧
      d.Twins (Outcome.ofResult u r).2 (Outcome.ofResult u' r').2 := by
  cases h with
  | ok hc hw =>
      cases hc with
      | rejected => exact ⟨0, d.unmoved, rfl, hw⟩
      | completed => exact ⟨0, d.unmoved, rfl, hw⟩
      | @failed n token cause hn => exact ⟨n, hn, rfl, hw⟩
  | @error i i' w w' hi hw =>
      cases hi with
      | same => cases i <;> exact ⟨0, d.unmoved, rfl, hw⟩
      | @down n token cause hn => exact ⟨n, hn, rfl, hw⟩

/-! ### Worlds -/

/-- The same world but for the error output, and some functions and classes may stand so many lines
further down. -/
structure World.Moved (n : Nat) (w w' : World) : Prop where
  rest : w' = { w with
    functions := w'.functions
    classes := w'.classes
    console := { w.console with err := w'.console.err } }
  functions : w'.functions.size = w.functions.size ∧ ∀ r,
    w'.functions.get r = w.functions.get r ∨ w'.functions.get r = (w.functions.get r).down n
  classes : w'.classes.size = w.classes.size ∧ ∀ r,
    w'.classes.get r = w.classes.get r ∨ w'.classes.get r = (w.classes.get r).down n

namespace Likeness

/-- The likeness of worlds in which an interpreter has other constants. -/
def exceptConstants (home : Ref .interpreter) : Likeness where
  home := home
  moved := fun n => n = 0
  errors := fun _ _ => True
  interpreters := fun i i' => ∃ constants, i' = { i with constants := constants }
  unmoved := Nat.zero_eq
  warn := fun _ _ => trivial
  warnRuntime := fun _ _ _ _ _ => trivial
  refl := fun i => ⟨i.constants, rfl⟩
  same := by
    rintro _ _ ⟨_, rfl⟩
    exact ⟨rfl, rfl, rfl, rfl⟩
  noteStatic := by
    rintro _ _ ⟨constants, rfl⟩
    exact ⟨constants, rfl⟩
  noteRuntime := by
    rintro _ _ ⟨constants, rfl⟩
    exact ⟨constants, rfl⟩
  reset := by
    rintro _ _ ⟨constants, rfl⟩
    exact ⟨constants, rfl⟩
  prepare := by
    rintro _ _ constants _ ⟨_, rfl⟩
    exact ⟨constants, rfl⟩

/-- The likeness of worlds in which some code stands so many lines further down. -/
def exceptLines (n : Nat) : Likeness where
  home := ⟨0⟩
  moved := fun m => m = 0 ∨ m = n
  errors := fun _ _ => True
  interpreters := fun i i' => i' = i
  unmoved := .inl rfl
  warn := fun _ _ => trivial
  warnRuntime := fun _ _ _ _ _ => trivial
  refl := fun _ => rfl
  same := by
    rintro _ _ rfl
    exact ⟨rfl, rfl, rfl, rfl⟩
  noteStatic := by
    rintro _ _ rfl
    rfl
  noteRuntime := by
    rintro _ _ rfl
    rfl
  reset := by
    rintro _ _ rfl
    rfl
  prepare := by
    rintro _ _ _ _ rfl
    rfl

namespace Twins
variable {home : Ref .interpreter} {n : Nat} {w w' : World}

/-- Two units that are prepared in the same world. -/
theorem prepared (w : World) (home : Ref .interpreter) (err err' : String) {u u' : CompiledUnit}
    (hfile : u'.file = u.file) : (exceptConstants home).Twins
      ((w.withErrors err).prepare home u) ((w.withErrors err').prepare home u') where
  scopes := rfl
  functions := .refl (fun _ => Closures.refl) _
  classes := .refl (fun _ => Classes.refl) _
  instances := rfl
  modules := rfl
  interpreters := by
    refine Arena.Matches.set (.refl (fun _ _ => .inl rfl) w.interpreters) home ?_
    refine .inr ⟨rfl, u'.constants, ?_⟩
    rw [hfile]
    rfl
  loaders := rfl
  files := rfl
  workingDirectory := rfl
  out := rfl
  errors := trivial
  verbose := rfl
  now := rfl

/-- The constants are the same again when a unit is prepared that has them. -/
theorem prepare (h : (exceptConstants home).Twins w w')
    (hhome : home.index < w.interpreters.size) (n : Nat) (err : String) {u : CompiledUnit}
    (hconstants : (w'.interpreters.get home).constants = u.constants)
    (hfile : (w.interpreters.get home).file = some u.file) : (exceptLines n).Twins
      ((w.withErrors err).prepare home u) w' where
  scopes := h.scopes
  functions := ⟨h.functions.size, fun r => ⟨0, .inl rfl, by
    rw [(h.functions.get r).eq fun _ hn => hn, Closure.down_zero]
    rfl⟩⟩
  classes := ⟨h.classes.size, fun r => ⟨0, .inl rfl, by
    rw [(h.classes.get r).eq fun _ hn => hn, ClassObject.down_zero]
    rfl⟩⟩
  instances := h.instances
  modules := h.modules
  interpreters := by
    refine ⟨h.interpreters.size.trans (Arena.size_set ..).symm, fun r => .inl ?_⟩
    by_cases hr : r = home
    · subst hr
      rw [(w.withErrors err).get_prepare u hhome, ← hconstants, ← hfile,
        World.withErrors_interpreters]
      rcases h.interpreters.get r with hget | ⟨-, _, hget⟩ <;> rw [hget]
    · refine ((h.interpreters.get r).resolve_right fun hne => hr hne.1).trans ?_
      exact (Arena.get_set_of_ne _ _ (Ne.symm hr)).symm
  loaders := h.loaders
  files := h.files
  workingDirectory := h.workingDirectory
  out := h.out
  errors := trivial
  verbose := h.verbose
  now := h.now

theorem exceptConstants_eq (h : (exceptConstants home).Twins w w') : ∃ constants err,
    w' = (w.withConstants home constants).withErrors err := by
  have hinterpreters : w'.interpreters =
      (w.withConstants home (w'.interpreters.get home).constants).interpreters := by
    refine (Arena.Matches.mk ?_ fun r => ?_).eq
    · exact h.interpreters.size.trans (Arena.size_set ..).symm
    · by_cases hr : r = home
      · subst hr
        rcases Nat.lt_or_ge r.index w.interpreters.size with hlt | hge
        · refine Eq.trans ?_ (Arena.get_set_self _ _ hlt).symm
          rcases h.interpreters.get r with hget | ⟨-, _, hget⟩ <;> rw [hget]
        · rw [Arena.get_of_le _ (h.interpreters.size ▸ hge)]
          exact (Arena.get_of_le _ (by rwa [World.withConstants, World.updateInterpreter,
            Arena.size_set])).symm
      · refine Eq.trans ?_ (Arena.get_set_of_ne _ _ (Ne.symm hr)).symm
        exact (h.interpreters.get r).resolve_right fun hne => hr hne.1
  refine ⟨(w'.interpreters.get home).constants, w'.console.err, ?_⟩
  refine (h.rest_of_unmoved fun _ hn => hn).trans ?_
  exact congrArg (fun is => ({ w with interpreters := is } : World).withErrors w'.console.err)
    hinterpreters

theorem exceptLines_interpreters (h : (exceptLines n).Twins w w') :
    w'.interpreters = w.interpreters :=
  (Arena.Matches.mk h.interpreters.size fun r => by
    rcases h.interpreters.get r with hget | ⟨-, hget⟩ <;> exact hget).eq

theorem exceptLines_eq (h : (exceptLines 0).Twins w w') : ∃ err, w' = w.withErrors err := by
  have hrest := h.rest_of_unmoved fun n (hn : n = 0 ∨ n = 0) => hn.elim id id
  rw [h.exceptLines_interpreters] at hrest
  exact ⟨w'.console.err, hrest⟩

theorem exceptLines_moved (h : (exceptLines n).Twins w w') : w.Moved n w' where
  rest := by
    have hrest := h.rest
    rw [h.exceptLines_interpreters] at hrest
    exact hrest
  functions := by
    refine ⟨h.functions.size, fun r => ?_⟩
    obtain ⟨m, hm, hget⟩ := h.functions.get r
    rcases hm with rfl | rfl
    · exact .inl (hget.trans (Closure.down_zero _))
    · exact .inr hget
  classes := by
    refine ⟨h.classes.size, fun r => ?_⟩
    obtain ⟨m, hm, hget⟩ := h.classes.get r
    rcases hm with rfl | rfl
    · exact .inl (hget.trans (ClassObject.down_zero _))
    · exact .inr hget

end Twins
end Likeness

/-! ### Runs -/

/-- Whether the unit was run to its end. -/
def Outcome.completed : Outcome → Bool
  | .ended _ .completed => true
  | _ => false

/-- A unit ends as its statements do. -/
theorem Outcome.ofResult_cases (u : CompiledUnit) (home : Ref .interpreter) (w : World) :
    let run := Eval.statement grantedRounds (nestingLimit / 2)
    let ended := Outcome.ofResult u (Eval.runStatements run home u.statements w)
    (ended.1.completed = true ∧
        u.statements.forM (run ⟨home, w.globals home⟩) w = .ok () ended.2) ∨
      (ended.1.completed = false ∧
        ∃ i t, u.statements.forM (run ⟨home, w.globals home⟩) w = .error i t) := by
  dsimp only
  unfold Eval.runStatements
  cases hr : u.statements.forM (Eval.statement grantedRounds (nestingLimit / 2)
    ⟨home, w.globals home⟩) w with
  | ok a t => exact .inl ⟨rfl, rfl⟩
  | error i t =>
      refine .inr ⟨?_, i, t, rfl⟩
      cases i <;> rfl

section
variable {s : Watched World Event} {home : Ref .interpreter} {file first : String}

theorem Good.withErrors (h : Good False 0 s) (err : String) :
    Good False 0 ⟨s.state.withErrors err, s.notes⟩ := (h.alike (s.state.alike_withErrors err)).good

/-- What a completed text has left. -/
theorem Good.completed (h : Good False 0 s) (hhome : home.index < s.state.interpreters.size)
    (hfirst : s.state.Accepts home file first)
    (hcompleted : (s.state.run home file first).1.completed = true) : ∃ err notes,
    let u := (s.state.text nestingLimit home file first).unit
    u.statements.forM (Eval.statement grantedRounds (nestingLimit / 2)
      ⟨home, s.state.globals home⟩) ((s.state.withErrors err).prepare home u) =
        .ok () (s.state.run home file first).2 ∧
    Underway False 0 home (s.state.text nestingLimit home file first) (s.state.globals home)
      (fun x => s.state.scopes.contains (s.state.globals home) x = true) u.statements
      ⟨(s.state.run home file first).2, notes⟩ := by
  obtain ⟨err, hrun⟩ := World.run_prepared hfirst
  have hended := Outcome.ofResult_cases (s.state.text nestingLimit home file first).unit home
    ((s.state.withErrors err).prepare home (s.state.text nestingLimit home file first).unit)
  dsimp only at hrun hended
  rw [← hrun, (s.state.withErrors err).globals_prepare _ hhome, World.globals_withErrors] at hended
  obtain ⟨-, hdone⟩ := hended.resolve_right fun hnot => by simp [hcompleted] at hnot
  obtain ⟨notes, hunderway⟩ :=
    (h.withErrors err).underway hhome hfirst.unit (List.append_nil _).symm hdone
  exact ⟨err, notes, hdone, hunderway⟩

/-- The same statements, in the same world but for the constants of the unit they belong to. -/
theorem World.statements_alike (w : World) (home : Ref .interpreter) {u u' : CompiledUnit}
    (hfile : u'.file = u.file) (statements : List Stmt) (err err' : String) :
    let run := Eval.statement grantedRounds (nestingLimit / 2) ⟨home, w.globals home⟩
    (Likeness.exceptConstants home).Outcomes Eq
      (statements.forM run ((w.withErrors err).prepare home u))
      (statements.forM run ((w.withErrors err').prepare home u')) := by
  have hagree := Likeness.agree_body (Likeness.levelAgrees (Likeness.exceptConstants home)
    grantedRounds (nestingLimit / 2)).statement (n := 0) rfl ⟨home, w.globals home⟩ statements
  rw [← downStmts_eq, downStmts_zero] at hagree
  exact hagree _ _ (.prepared w home err err' hfile)

/-- While a text runs that begins with the statements of another one, which completed. -/
theorem Good.midway (h : Good False 0 s) (hhome : home.index < s.state.interpreters.size)
    (hfirst : s.state.Accepts home file first)
    (hcompleted : (s.state.run home file first).1.completed = true) {both : String}
    (hboth : s.state.Accepts home file both) {others : List Stmt}
    (hstatements : (s.state.text nestingLimit home file both).unit.statements =
      (s.state.text nestingLimit home file first).unit.statements ++ others) : ∃ t,
    let u := (s.state.text nestingLimit home file both).unit
    s.state.run home file both = Outcome.ofResult u (Eval.runStatements
      (Eval.statement grantedRounds (nestingLimit / 2)) home others t) ∧
    (Likeness.exceptConstants home).Twins (s.state.run home file first).2 t ∧
    (t.interpreters.get home).constants = u.constants := by
  obtain ⟨err, -, hdone, -⟩ := h.completed hhome hfirst hcompleted
  obtain ⟨err', hrun⟩ := World.run_prepared hboth
  have hfile : (s.state.text nestingLimit home file both).unit.file =
      (s.state.text nestingLimit home file first).unit.file := by
    rw [World.file_text, World.file_text]
  -- The two texts prepare different constants, which no statement sees while it runs.
  have halike := s.state.statements_alike home hfile
    (s.state.text nestingLimit home file first).unit.statements err err'
  dsimp only at hrun hdone halike
  rw [hdone] at halike
  generalize hr : (s.state.text nestingLimit home file first).unit.statements.forM
    (Eval.statement grantedRounds (nestingLimit / 2) ⟨home, s.state.globals home⟩)
    ((s.state.withErrors err').prepare home (s.state.text nestingLimit home file both).unit) = r
    at halike
  cases halike with
  | @ok _ _ _ t _ htwins =>
      obtain ⟨notes, hleft⟩ := (h.withErrors err').underway hhome hboth.unit hstatements hr
      refine ⟨t, ?_, htwins, hleft.prepared⟩
      have hstart := (s.state.withErrors err').globals_prepare
        (s.state.text nestingLimit home file both).unit hhome
      rw [hrun, hstatements, Eval.runStatements_append others]
      · rw [hstart]
        exact hr
      · exact hleft.globals.trans hstart.symm

/-- Behind a text that completed, the rest of one that begins with its statements is run as the same
statements are run as a text of their own, perhaps further up. -/
theorem Good.run_rest (h : Good False 0 s) (hhome : home.index < s.state.interpreters.size)
    (hfirst : s.state.Accepts home file first)
    (hcompleted : (s.state.run home file first).1.completed = true) {both next : String}
    (hboth : s.state.Accepts home file both)
    (hnext : (s.state.run home file first).2.Accepts home file next) {n : Nat}
    (hstatements : (s.state.text nestingLimit home file both).unit.statements =
      (s.state.text nestingLimit home file first).unit.statements ++
      ((s.state.run home file first).2.text nestingLimit home file next).unit.statements.map
        (Stmt.down n))
    (hconstants : (s.state.text nestingLimit home file both).unit.constants =
      ((s.state.run home file first).2.text nestingLimit home file next).unit.constants) :
    let w := (s.state.run home file first).2
    let u := (s.state.text nestingLimit home file both).unit
    ∃ m, (m = 0 ∨ m = n) ∧
      (s.state.run home file both).1 = (w.run home file next).1.elsewhere u m ∧
      (Likeness.exceptLines n).Twins (w.run home file next).2 (s.state.run home file both).2 := by
  obtain ⟨t, hrun, htwins, hprepared⟩ := h.midway hhome hfirst hcompleted hboth hstatements
  obtain ⟨-, notes, -, hleft⟩ := h.completed hhome hfirst hcompleted
  obtain ⟨err, hrun'⟩ := World.run_prepared hnext
  have hfile := hleft.file
  have hready := htwins.prepare hleft.started n err (hprepared.trans hconstants) ?_
  · have hagree := Likeness.agree_runStatements (Likeness.levelAgrees (Likeness.exceptLines n)
      grantedRounds (nestingLimit / 2)).statement (n := n) (.inr rfl) home
      ((s.state.run home file first).2.text nestingLimit home file next).unit.statements _ _ hready
    have hended := hagree.elsewhere
      ((s.state.run home file first).2.text nestingLimit home file next).unit
      (s.state.text nestingLimit home file both).unit
    dsimp only at hrun hrun' hended
    rw [← hrun, ← hrun'] at hended
    exact hended
  · rw [World.file_text] at hfile ⊢
    exact hfile

/-- Where a text does not complete, nor does one that begins with its statements. -/
theorem World.run_interrupted {w : World} (hhome : home.index < w.interpreters.size)
    (hfirst : w.Accepts home file first) (hnot : (w.run home file first).1.completed = false)
    {both : String} (hboth : w.Accepts home file both) {others : List Stmt}
    (hstatements : (w.text nestingLimit home file both).unit.statements =
      (w.text nestingLimit home file first).unit.statements ++ others) :
    let u := (w.text nestingLimit home file both).unit
    (w.run home file both).1 = (w.run home file first).1.elsewhere u 0 ∧
      (Likeness.exceptConstants home).Twins (w.run home file first).2 (w.run home file both).2 := by
  obtain ⟨err, hrun⟩ := run_prepared hfirst
  obtain ⟨err', hrun'⟩ := run_prepared hboth
  have hfile : (w.text nestingLimit home file both).unit.file =
      (w.text nestingLimit home file first).unit.file := by rw [file_text, file_text]
  have hended := Outcome.ofResult_cases (w.text nestingLimit home file first).unit home
    ((w.withErrors err).prepare home (w.text nestingLimit home file first).unit)
  dsimp only at hrun hrun' hended
  rw [← hrun, (w.withErrors err).globals_prepare _ hhome, globals_withErrors] at hended
  obtain ⟨-, i, t, hinterrupted⟩ := hended.resolve_left fun hdone => by simp [hnot] at hdone
  have halike := w.statements_alike home hfile (w.text nestingLimit home file first).unit.statements
    err err'
  dsimp only at halike
  rw [hinterrupted] at halike
  generalize hr : (w.text nestingLimit home file first).unit.statements.forM
    (Eval.statement grantedRounds (nestingLimit / 2) ⟨home, w.globals home⟩)
    ((w.withErrors err').prepare home (w.text nestingLimit home file both).unit) = r at halike
  cases halike with
  | error _ _ =>
      have hstart := (w.withErrors err').globals_prepare
        (w.text nestingLimit home file both).unit hhome
      rw [globals_withErrors] at hstart
      rw [← hstart] at hr
      have hagree := Likeness.agree_runStatements (Likeness.levelAgrees
        (Likeness.exceptConstants home) grantedRounds (nestingLimit / 2)).statement (n := 0) rfl home
        (w.text nestingLimit home file first).unit.statements _ _
        (.prepared w home err err' hfile)
      have hcut := Eval.runStatements_interrupted others hr
      rw [← downStmts_eq, downStmts_zero, ← hcut, ← hstatements] at hagree
      obtain ⟨m, hm, hended⟩ := hagree.elsewhere (w.text nestingLimit home file first).unit
        (w.text nestingLimit home file both).unit
      rw [← hrun, ← hrun', show m = 0 from hm] at hended
      exact hended

/-- A text that is accepted behind a completed one is accepted in one piece with it. -/
theorem Good.joined (h : Good False 0 s) (hhome : home.index < s.state.interpreters.size)
    (hfirst : s.state.Accepts home file first)
    (hcompleted : (s.state.run home file first).1.completed = true) {second : String}
    (hsecond : (s.state.run home file first).2.Accepts home file second) :
    let u := ((s.state.run home file first).2.text nestingLimit home file second).unit
    (s.state.text nestingLimit home file (first ++ "\n" ++ second)).Makes
      ((s.state.text nestingLimit home file first).unit.statements ++
        u.statements.map (Stmt.down (lineCount first))) u.constants := by
  obtain ⟨-, notes, -, hleft⟩ := h.completed hhome hfirst hcompleted
  have hglobals : ∀ x ∈ ((s.state.run home file first).2.text nestingLimit home file second).globals,
      x ∈ (s.state.text nestingLimit home file first).globals ∨
        ∃ st ∈ (s.state.text nestingLimit home file first).unit.statements, x ∈ st.binds := by
    intro x hx
    have hsame : (s.state.run home file first).2.globals home = s.state.globals home := hleft.globals
    rw [World.mem_globals_text, hsame] at hx
    rw [World.mem_globals_text]
    exact hleft.bound x hx
  exact UnitText.followed_makes hfirst.unit hsecond.unit rfl hleft.prepared hglobals

end

end Treewalk
