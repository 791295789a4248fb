import Treewalk.Proofs.Run.Calls

/-!
# Units and modules in a run

A unit runs its statements one after the other in the globals of its interpreter. What they import
is run by newer interpreters, so that nothing else begins in this one meanwhile.
-/
namespace Treewalk

namespace World

theorem get_updateInterpreter (w : World) {home : Ref .interpreter} (f : Interpreter → Interpreter)
    (h : home.index < w.interpreters.size) (home' : Ref .interpreter) :
    (w.updateInterpreter home f).interpreters.get home' =
      if home' = home then f (w.interpreters.get home) else w.interpreters.get home' := by
  unfold updateInterpreter
  by_cases he : home' = home
  · rw [if_pos he, he]
    exact Arena.get_set_self _ _ h
  · rw [if_neg he]
    exact Arena.get_set_of_ne _ _ (Ne.symm he)

/-- The first interpreter is logged, and nothing else is different about it. -/
theorem addInterpreter_eq (w : World) (unit : String) (loader : Ref .loader) :
    ∃ console, w.addInterpreter unit loader = { w with
      scopes := (w.scopes.addChild none).define w.scopes.next clockName (.clock w.interpreters.next)
      interpreters := w.interpreters.add
        { reporter := { unit := unit }, globals := w.scopes.next, loader := loader }
      console := console } := by
  unfold addInterpreter
  by_cases h : w.interpreters.size = 0
  · exact ⟨_, by simp only [h, if_true]; rfl⟩
  · exact ⟨w.console, by simp only [h, if_false]⟩

theorem size_addInterpreter (w : World) (unit : String) (loader : Ref .loader) :
    (w.addInterpreter unit loader).interpreters.size = w.interpreters.size + 1 := by
  obtain ⟨console, hadd⟩ := w.addInterpreter_eq unit loader
  rw [hadd]
  exact Arena.size_add ..

/-- An interpreter takes over the constants and the file of a unit that it is about to run. -/
def prepare (w : World) (home : Ref .interpreter) (u : CompiledUnit) : World :=
  w.updateInterpreter home fun i => { i with constants := u.constants, file := some u.file }

theorem get_prepare (w : World) {home : Ref .interpreter} (u : CompiledUnit)
    (h : home.index < w.interpreters.size) : (w.prepare home u).interpreters.get home =
      { w.interpreters.get home with constants := u.constants, file := some u.file } :=
  Arena.get_set_self _ _ h

theorem globals_prepare (w : World) {home : Ref .interpreter} (u : CompiledUnit)
    (h : home.index < w.interpreters.size) : (w.prepare home u).globals home = w.globals home := by
  unfold globals
  rw [w.get_prepare u h]

theorem keeps_prepare {current : Prop} {n : Nat} (w : World) {home : Ref .interpreter}
    {K : List String} (file : Option String) (hhome : home.index < w.interpreters.size)
    (hn : n ≤ home.index) (hmore : current → (w.interpreters.get home).constants ⊆ K) :
    w.Keeps current n
      (w.updateInterpreter home fun i => { i with constants := K, file := file }) := by
  have hget := w.get_updateInterpreter (fun i => { i with constants := K, file := file }) hhome
  constructor
  case scopes => rfl
  case functions => rfl
  case classes => rfl
  case interpreters => exact Arena.size_set ..
  case globals =>
    intro home'
    unfold globals
    rw [hget]
    by_cases he : home' = home
    · rw [if_pos he, he]
    · rw [if_neg he]
  case modules => exact fun _ => .inl rfl
  case constants | files =>
    intro home' hlt
    rw [hget, if_neg]
    rintro rfl
    exact Nat.lt_irrefl _ (Nat.lt_of_lt_of_le hlt hn)
  case more =>
    intro hcur home'
    rw [hget]
    by_cases he : home' = home
    · rw [if_pos he, he]
      exact hmore hcur
    · rw [if_neg he]
      exact List.Subset.refl _

end World

section
variable {current : Prop} {n : Nat} {s : Watched World Event} {home : Ref .interpreter}
  {text : UnitText} {run : Site → Stmt → Watching Unit} {known : String → Prop}

/-- The statements `done` of a unit have run, where the names before it were `known`. -/
structure Underway (current : Prop) (n : Nat) (home : Ref .interpreter) (text : UnitText)
    (globals : Ref .scope) (known : String → Prop) (done : List Stmt) (s : Watched World Event) :
    Prop where
  good : Good current n s
  started : home.index < s.state.interpreters.size
  bound : ∀ x, s.state.scopes.contains globals x = true → known x ∨ ∃ st ∈ done, x ∈ st.binds
  globals : s.state.globals home = globals
  prepared : (s.state.interpreters.get home).constants = text.unit.constants
  file : (s.state.interpreters.get home).file = some text.unit.file
  declared : current → ∀ text' x initial,
    .began home text' (.var .constant x initial) ∈ s.notes →
      x.lexeme ∈ text.constants ∨ (x.lexeme, .constant) ∈ declarations done

namespace Watching

/-- While a statement of a unit runs, no other one begins in its interpreter. -/
theorem begin_safe (hrun : SafeStatements current run) (hn : n ≤ home.index)
    (hok : text.unit.ok = true) {globals : Ref .scope} {st : Stmt} {done rest : List Stmt}
    (he : text.unit.statements = done ++ st :: rest)
    (h : Underway current n home text globals known done s) :
    Safe current n (begin run ⟨home, globals⟩ text st) s fun _ t =>
      Underway current n home text globals known (done ++ [st]) t := by
  have hnote : Goes current n s ⟨s.state, .began home text st :: s.notes⟩ := by
    refine h.good.note ⟨hok, done, rest, he, h.declared⟩ (fun _ _ hc => nomatch hc)
      (fun _ _ _ _ hc => nomatch hc) ?_
    intro home' text' st' heq
    cases heq
    refine ⟨hn, h.started, fun hcur x initial hst => ?_⟩
    rw [h.prepared, text.mem_constants hok, he, declarations_append]
    refine .inr (List.mem_append_right _ ?_)
    unfold declarations
    rw [List.flatMap_cons, hst]
    exact List.mem_append_left _ (List.mem_singleton_self _)
  have hat : At ⟨s.state, .began home text st :: s.notes⟩ ⟨home, globals⟩ ⟨[], .stmt st⟩ := by
    rw [← h.globals]
    exact ⟨.globals h.started, text, st, List.mem_cons_self .., .refl⟩
  -- Every interpreter so far is left alone by what is imported.
  have hall := hrun s.state.interpreters.size _ _ _ st
    ⟨hnote.good.sane, hnote.good.told, Nat.le_refl _⟩ hat
    fun _ _ => ⟨st, latest_began .., List.Subset.refl _⟩
  have hless : n ≤ s.state.interpreters.size := h.good.enough
  have hmark : Safe current n (Watched.note (.began home text st)) s fun _ t =>
      t = ⟨s.state, .began home text st :: s.notes⟩ := ⟨hnote, rfl⟩
  refine hmark.bind fun _ t _ ht => ?_
  subst ht
  refine (hall.mono hless).weaken fun _ u hu ⟨_, hleft⟩ => ?_
  constructor
  case good => exact hu.good
  case started => exact Nat.lt_of_lt_of_le h.started hu.grows.interpreters
  case globals => exact (hu.grows.globals home h.started).trans h.globals
  case prepared => exact (hleft.grows.constants home h.started).trans h.prepared
  case file => exact (hleft.grows.files home h.started).trans h.file
  case declared =>
    intro hcur text' x initial hb
    rw [declarations_append, declarations_singleton, List.mem_append]
    rcases List.mem_cons.mp (hleft.grows.calm home text' _ hb h.started) with hb | hb
    · cases hb
      exact .inr (.inr (List.mem_singleton_self _))
    · rcases h.declared hcur text' x initial hb with hx | hx
      · exact .inl hx
      · exact .inr (.inl hx)
  case bound =>
    intro x hx
    have hnew := hleft.grows.bound home h.started h.started x
    change _ → _ ∨ ∃ st', latest home (.began home text st :: s.notes) = some st' ∧ _ at hnew
    rw [h.globals, latest_began] at hnew
    rcases hnew hx with hx | ⟨st', hst', hx⟩
    · refine (h.bound x hx).imp_right fun ⟨st', hst', hx⟩ => ⟨st', ?_, hx⟩
      exact List.mem_append_left _ hst'
    · cases hst'
      exact .inr ⟨st, List.mem_append_right _ (List.mem_singleton_self _), hx⟩

/-- Some statements of a unit run one after the other. -/
theorem statements_safe (hrun : SafeStatements current run) (hn : n ≤ home.index)
    (hok : text.unit.ok = true) {globals : Ref .scope} (middle : List Stmt) {done rest : List Stmt}
    (he : text.unit.statements = done ++ (middle ++ rest))
    (h : Underway current n home text globals known done s) :
    Safe current n (middle.forM (begin run ⟨home, globals⟩ text)) s fun _ t =>
      Underway current n home text globals known (done ++ middle) t := by
  induction middle generalizing s done with
  | nil =>
      rw [List.append_nil]
      exact .pure h.good h
  | cons st others ih =>
      refine (begin_safe hrun hn hok he h).bind fun _ t _ ht => ?_
      have hnext : text.unit.statements = (done ++ [st]) ++ (others ++ rest) := by
        rw [he, List.append_assoc]
        rfl
      have hothers := ih hnext ht
      rw [List.append_assoc] at hothers
      exact hothers

theorem runStatements_safe (hrun : SafeStatements current run) (hn : n ≤ home.index)
    (hok : text.unit.ok = true)
    (h : Underway current n home text (s.state.globals home) known [] s) :
    Safe current n (runStatements run home text) s fun _ _ => True := by
  have hwhole : text.unit.statements = [] ++ (text.unit.statements ++ []) :=
    (List.append_nil _).symm
  have hall := statements_safe hrun hn hok text.unit.statements hwhole h
  unfold Safe at hall ⊢
  unfold runStatements
  cases hr : text.unit.statements.forM (begin run ⟨home, s.state.globals home⟩ text) s with
  | ok a t =>
      simp only [hr] at hall
      exact ⟨hall.1, trivial⟩
  | error i t =>
      simp only [hr] at hall
      cases i with
      | error e =>
          have hreport := hall.1.good.alike (t.state.alike_reportRuntime home e)
          exact ⟨hall.1.trans hreport, trivial⟩
      | _ => exact hall

/-- A prepared interpreter is about to run the unit. -/
theorem underway_prepare (h : Good current n s) (hhome : home.index < s.state.interpreters.size)
    (hn : n ≤ home.index) (hok : text.unit.ok = true)
    (hcurrent : current → text.constants = (s.state.interpreters.get home).constants) :
    Goes current n s ⟨s.state.prepare home text.unit, s.notes⟩ ∧
      Underway current n home text (s.state.globals home)
        (fun x => s.state.scopes.contains (s.state.globals home) x = true) []
        ⟨s.state.prepare home text.unit, s.notes⟩ := by
  have hmore : current → (s.state.interpreters.get home).constants ⊆ text.unit.constants := by
    intro hcur x hx
    rw [← hcurrent hcur] at hx
    exact (text.mem_constants hok x).mpr (.inl hx)
  have hkeeps := h.keeps (s.state.keeps_prepare (some text.unit.file) hhome hn hmore)
  have hget := s.state.get_prepare text.unit hhome
  refine ⟨hkeeps, hkeeps.good, Nat.lt_of_lt_of_le hhome hkeeps.grows.interpreters,
    fun x hx => .inl hx, hkeeps.grows.globals home hhome, congrArg Interpreter.constants hget,
    congrArg Interpreter.file hget, fun hcur text' x initial hb => ?_⟩
  rw [hcurrent hcur]
  exact .inl (h.sane.constants hcur home text' x initial hb)

/-- A unit is run on the constants it was prepared with. -/
theorem execute_safe (hrun : SafeStatements current run) (h : Good current n s)
    (hhome : home.index < s.state.interpreters.size) (hn : n ≤ home.index)
    (hcurrent : current → text.constants = (s.state.interpreters.get home).constants) :
    Safe current n (execute run home text) s fun _ _ => True := by
  unfold execute
  by_cases hok : text.unit.ok = true
  · rw [if_pos hok]
    obtain ⟨hgoes, hstart⟩ := underway_prepare h hhome hn hok hcurrent
    have hprepare : Safe current n (Watched.quietly (modify fun w => w.updateInterpreter home fun i =>
        { i with constants := text.unit.constants, file := some text.unit.file })) s
        fun _ t => t = ⟨s.state.prepare home text.unit, s.notes⟩ := ⟨hgoes, rfl⟩
    refine hprepare.bind fun _ t ht htold => ?_
    rw [← hstart.globals, ← htold] at hstart
    exact runStatements_safe hrun hn hok hstart
  · rw [if_neg hok]
    have hlog := Eval.calm_modify (f := fun w : World =>
      w.log (.notExecuted text.unit.file text.unit.errorCount)) fun w => w.alike_log _
    exact (Safe.calmly h hlog).bind fun _ t ht _ => .pure ht.good trivial

theorem loadModule_safe (hrun : SafeStatements current run) (h : Good current n s) (levels : Nat)
    (loader : Ref .loader) (token : Token) (name : String) (place : RealPath) (source : String) :
    Safe current n (loadModule levels run loader token name place source) s fun _ _ => True := by
  refine .looking ?_
  have hforget : ∀ (t : Watched World Event) (cause : RuntimeCause), Good current n t →
      Safe current n (do
        Watched.quietly (modify fun w => w.updateLoader loader fun l => l.forget place)
        Watched.quietly (Eval.fail token cause) : Watching (Ref .module)) t fun _ _ => True := by
    intro t cause ht
    have hcalm := Eval.calm_modify (f := fun w : World =>
      w.updateLoader loader fun l => l.forget place) fun w => w.alike_updateLoader _ _
    exact (Safe.calmly ht hcalm).bind fun _ u hu _ =>
      (Safe.calmly hu.good (Eval.calm_fail _ _)).trivially
  have hlog := h.alike (s.state.alike_log (.moduleLoading name place.text))
  have hadd := hlog.trans (hlog.good.addInterpreter name loader)
  have hsize := (s.state.log (.moduleLoading name place.text)).size_addInterpreter name loader
  simp only
  generalize hw : (s.state.log (.moduleLoading name place.text)).addInterpreter name loader = w at *
  have hregister : w.Keeps current n (({ w with
      modules := w.modules.add ⟨name, place.text, s.state.interpreters.next⟩ } : World).updateLoader loader
        fun l => l.register place s.state.modules.next) := by
    refine ⟨rfl, rfl, rfl, rfl, fun _ => rfl, fun m => ?_, fun _ _ => rfl, fun _ _ => rfl,
      fun _ _ => List.Subset.refl _⟩
    change ((w.modules.add _).get m).home = _ ∨ ((w.modules.add _).get m).home.index < _
    rw [Arena.get_add]
    by_cases hm : m = w.modules.next
    · rw [if_pos hm]
      exact .inr (Nat.lt_of_lt_of_eq (Nat.lt_succ_self _) hsize.symm)
    · rw [if_neg hm]
      exact .inl rfl
  generalize hw' : ({ w with
      modules := w.modules.add ⟨name, place.text, s.state.interpreters.next⟩ } : World).updateLoader loader
        (fun l => l.register place s.state.modules.next) = w' at *
  have hcompile := w'.alike_compile levels s.state.interpreters.next place.text source
  have hkeeps := hadd.trans (hadd.good.keeps hregister)
  have hset := hkeeps.trans (hkeeps.good.alike hcompile)
  have hstart : Safe current n (Watched.quietly (set
      (w'.compile levels s.state.interpreters.next place.text source).2)) s fun _ t =>
        t.state = (w'.compile levels s.state.interpreters.next place.text source).2 :=
    ⟨hset, rfl⟩
  refine hstart.bind fun _ t ht hstate => ?_
  have hnew : s.state.interpreters.next.index < t.state.interpreters.size := by
    rw [hstate, (hcompile 0).interpreters, hregister.interpreters, hsize]
    exact Nat.lt_succ_self _
  have hcurrent : (w'.interpreters.get s.state.interpreters.next).constants =
      (t.state.interpreters.get s.state.interpreters.next).constants := by
    rw [hstate]
    exact (hcompile.same_constants _).symm
  have hexecute : Safe current n (execute run s.state.interpreters.next
      (w'.text levels s.state.interpreters.next place.text source)) t fun _ _ => True :=
    execute_safe hrun ht.good hnew h.enough fun _ => hcurrent
  refine hexecute.bind fun completion u hu _ => ?_
  cases completion with
  | completed => exact .pure hu.good trivial
  | rejected => exact hforget u _ hu.good
  | failed e => exact hforget u _ hu.good

theorem importModule_safe (home : Ref .interpreter) (hrun : SafeStatements current run)
    (h : Good current n s) (levels : Nat) (token : Token) :
    Safe current n (importModule levels run home token) s fun _ _ => True := by
  refine .looking ?_
  simp only
  cases s.state.findModule home (importedModule token) with
  | nothing => exact (Safe.calmly h (Eval.calm_fail _ _)).trivially
  | nameTooLong => exact ⟨h.here, trivial⟩
  | entry place e =>
      simp only
      cases (s.state.loaders.get (s.state.interpreters.get home).loader).cached? place with
      | some m =>
          have hcalm := Eval.calm_modify (f := fun w : World =>
            w.log (.moduleCached (importedModule token) place.text)) fun w => w.alike_log _
          exact (Safe.calmly h hcalm).bind fun _ t ht _ => .pure ht.good trivial
      | none =>
          have hread := Safe.calmly h (Eval.calm_readModule token (importedModule token) e)
          exact hread.bind fun source t ht _ => loadModule_safe hrun ht.good levels _ _ _ _ source

end Watching
end
end Treewalk
