import Treewalk.Proofs.Control.Lawful
import Treewalk.Proofs.Loading.Sessions

/-!
# How imports end

An import binds the module, or it fails with a runtime error at its name. Nothing else leaves it but
the crashes for a file that is no text or that no name can have, and what cuts the statements of the
module short. However it fails it binds nothing, and after a runtime error its file is not registered.
-/
namespace Treewalk

/-- A file that is forgotten is not registered. -/
theorem Loader.cached?_forget_self (c : Loader) (p : RealPath) : (c.forget p).cached? p = none := by
  unfold cached? forget
  rw [List.find?_filter]
  refine Option.map_eq_none_iff.mpr (List.find?_eq_none.mpr fun e _ => ?_)
  by_cases he : e.1 = p
  · simp [he]
  · simp [he]

theorem World.cached?_forget (w : World) (loader : Ref .loader) (p : RealPath) :
    ((w.updateLoader loader fun c => c.forget p).loaders.get loader).cached? p = none := by
  unfold updateLoader
  rcases Nat.lt_or_ge loader.index w.loaders.size with hlt | hge
  · rw [Arena.get_set_self _ _ hlt]
    exact Loader.cached?_forget_self _ p
  · rw [Arena.get_of_le _ ((Arena.size_set ..).symm ▸ hge)]
    rfl

/-- What an import finds is a file. -/
theorem World.isFile_of_findModule {w : World} {home : Ref .interpreter} {name : String}
    {place : RealPath} {e : FileEntry} (h : w.findModule home name = .entry place e) :
    e.isFile = true := by
  unfold findModule at h
  generalize w.moduleDirectories home = directories at h
  induction directories with
  | nil => cases h
  | cons d directories ih =>
      unfold firstFile at h
      split at h
      · cases h
      · split at h
        · cases h
          assumption
        · exact ih h
      · exact ih h

/-- The module of a file, if the loader of an interpreter has it. -/
def World.registered? (w : World) (home : Ref .interpreter) (place : RealPath) :
    Option (Ref .module) := (w.loaders.get (w.interpreters.get home).loader).cached? place

/-- How the unit of a module ends when an import runs it for the first time. -/
inductive World.RunsModule (patience levels : Nat) (home : Ref .interpreter) (name : String)
    (place : RealPath) (w : World) : EStateM.Result Interrupt World Eval.Completion → Prop
  | intro {bytes : ByteArray} {source : String} :
      w.findModule home name = .entry place (.file bytes) → w.registered? home place = none →
      Text.decode? bytes = some source →
      w.RunsModule patience levels home name place
        (let enrolled := w.enroll name (w.interpreters.get home).loader place
        let prepared := enrolled.compile (2 * levels) w.interpreters.next place.text source
        Eval.execute (Eval.statement patience levels) w.interpreters.next prepared.1 prepared.2)

/-- An import reaches a module: it is registered, or its unit is run to its end. -/
def World.Provides (patience levels : Nat) (home : Ref .interpreter) (name : String) (w : World)
    (m : Ref .module) : Prop :=
  ∃ place e, w.findModule home name = .entry place e ∧
    (w.registered? home place = some m ∨ m = w.modules.next ∧
      ∃ v, w.RunsModule patience levels home name place (.ok .completed v))

/-- An import fails with a runtime error: no file is found, or it cannot be read, or its unit has
static errors or ends in a runtime error. The world is the one before the import or the one after the
unit, but for the registration of the file. -/
inductive World.ImportFails (patience levels : Nat) (home : Ref .interpreter) (name : String)
    (w : World) : RuntimeCause → World → Prop
  | notFound : w.findModule home name = .nothing →
      w.ImportFails patience levels home name (.moduleNotFound name) w
  | unreadable {place : RealPath} {reason : String} :
      w.findModule home name = .entry place (.unreadable reason) →
      w.ImportFails patience levels home name (.moduleUnreadable name reason) w
  | rejected {place : RealPath} {v : World} :
      w.RunsModule patience levels home name place (.ok .rejected v) →
      w.ImportFails patience levels home name (.moduleRejected name)
        (v.updateLoader (w.interpreters.get home).loader fun c => c.forget place)
  | failed {place : RealPath} {e : RuntimeError} {v : World} :
      w.RunsModule patience levels home name place (.ok (.failed e) v) →
      w.ImportFails patience levels home name (.moduleFailed name)
        (v.updateLoader (w.interpreters.get home).loader fun c => c.forget place)

/-- An import crashes where it stands: no file can have the name, or the file is no text. -/
inductive World.ImportCrashes (home : Ref .interpreter) (name : String) (w : World) : Crash → Prop
  | fileNameTooLong : w.findModule home name = .nameTooLong →
      w.ImportCrashes home name .fileNameTooLong
  | undecodableFile {place : RealPath} {bytes : ByteArray} :
      w.findModule home name = .entry place (.file bytes) → Text.decode? bytes = none →
      w.ImportCrashes home name .undecodableFile

/-- What an import may end in. After a runtime error its file is not registered. -/
def World.ImportEnds (patience levels : Nat) (home : Ref .interpreter) (token : Token) (w : World)
    {α : Type} (Q : Ref .module → α → World → Prop) : EStateM.Result Interrupt World α → Prop
  | .ok a v => ∃ m, w.Provides patience levels home (importedModule token) m ∧ Q m a v
  | .error (.error e) v =>
      e.token = token ∧ w.ImportFails patience levels home (importedModule token) e.cause v ∧
      ∀ place entry, w.findModule home (importedModule token) = .entry place entry →
        (v.loaders.get (w.interpreters.get home).loader).cached? place = none
  | .error (.signal _) _ => False
  | .error i v =>
      (∃ c, i = .crash c ∧ v = w ∧ w.ImportCrashes home (importedModule token) c) ∨
      ∃ place, w.RunsModule patience levels home (importedModule token) place (.error i v)

namespace Eval
variable {patience levels : Nat} {home : Ref .interpreter} {token : Token} {place : RealPath}
  {w v : World}

/-- A unit does not end in a runtime error, which is reported. -/
theorem execute_ne_error (run : Site → Stmt → Eval Unit) (u : CompiledUnit) (e : RuntimeError) :
    execute run home u w ≠ .error (.error e) v := by
  unfold execute
  by_cases hok : u.ok = true
  · rw [if_pos hok]
    change runStatements run home u.statements _ ≠ _
    unfold runStatements
    split
    · exact nofun
    · exact nofun
    · rename_i i _ hi _
      rintro ⟨⟩
      exact hi e rfl
  · rw [if_neg hok]
    exact nofun

/-- What follows the unit of a module. -/
theorem loadModule_run (run : Site → Stmt → Eval Unit) (loader : Ref .loader) (name source : String) :
    loadModule levels run loader token name place source w =
      let prepared := (w.enroll name loader place).compile levels w.interpreters.next place.text source
      match execute run w.interpreters.next prepared.1 prepared.2 with
      | .ok .completed v => .ok w.modules.next v
      | .ok .rejected v => .error (.error ⟨token, .moduleRejected name⟩)
          (v.updateLoader loader fun c => c.forget place)
      | .ok (.failed _) v => .error (.error ⟨token, .moduleFailed name⟩)
          (v.updateLoader loader fun c => c.forget place)
      | .error i v => .error i v := by
  change (execute run w.interpreters.next
    (World.compile (w.enroll name loader place) _ _ _ _).1 >>= _)
    (World.compile (w.enroll name loader place) _ _ _ _).2 = _
  rw [bind_run]
  dsimp only
  generalize (w.enroll name loader place).compile levels w.interpreters.next place.text source =
    prepared
  cases execute run w.interpreters.next prepared.1 prepared.2 with
  | ok completion v => cases completion <;> rfl
  | error i v => rfl

theorem readModule_run (name : String) (entry : FileEntry) :
    readModule token name entry w =
      match entry with
      | .file bytes =>
          match Text.decode? bytes with
          | some source => .ok source w
          | none => .error (.crash .undecodableFile) w
      | .unreadable reason => .error (.error ⟨token, .moduleUnreadable name reason⟩) w
      | .directory => .error (.error ⟨token, .moduleNotFound name⟩) w := by
  cases entry with
  | file bytes =>
      unfold readModule
      dsimp only
      cases Text.decode? bytes <;> rfl
  | _ => rfl

/-- What is loaded from a file ends as an import may, if no signal leaves it. -/
theorem loadModule_ends {bytes : ByteArray} {source : String}
    (hfound : w.findModule home (importedModule token) = .entry place (.file bytes))
    (hnew : w.registered? home place = none) (hsource : Text.decode? bytes = some source)
    (hsignal : ∀ c v, loadModule (2 * levels) (statement patience levels)
      (w.interpreters.get home).loader token (importedModule token) place source w ≠
        .error (.signal c) v) :
    w.ImportEnds patience levels home token (fun m a _ => a = m)
      (loadModule (2 * levels) (statement patience levels) (w.interpreters.get home).loader token
        (importedModule token) place source w) := by
  have hrun : w.RunsModule patience levels home (importedModule token) place _ :=
    .intro hfound hnew hsource
  rw [loadModule_run] at hsignal ⊢
  dsimp only at hrun hsignal ⊢
  generalize (w.enroll _ _ _).compile _ _ _ _ = prepared at hrun hsignal ⊢
  cases hend : execute (statement patience levels) w.interpreters.next prepared.1 prepared.2 with
  | ok completion v =>
      rw [hend] at hrun
      have hforgotten : ∀ place' entry,
          w.findModule home (importedModule token) = .entry place' entry →
          ((v.updateLoader (w.interpreters.get home).loader fun c => c.forget place).loaders.get
            (w.interpreters.get home).loader).cached? place' = none := by
        intro place' entry hfound'
        cases hfound.symm.trans hfound'
        exact v.cached?_forget _ place
      cases completion with
      | completed => exact ⟨_, ⟨place, _, hfound, .inr ⟨rfl, v, hrun⟩⟩, rfl⟩
      | rejected => exact ⟨rfl, .rejected hrun, hforgotten⟩
      | failed e => exact ⟨rfl, .failed hrun, hforgotten⟩
  | error i v =>
      rw [hend] at hrun hsignal
      cases i with
      | signal c => exact (hsignal c v rfl).elim
      | error e => exact (execute_ne_error _ _ e hend).elim
      | _ => exact .inr ⟨place, hrun⟩

theorem importModule_run (run : Site → Stmt → Eval Unit) :
    importModule levels run home token w =
      match w.findModule home (importedModule token) with
      | .nothing => .error (.error ⟨token, .moduleNotFound (importedModule token)⟩) w
      | .nameTooLong => .error (.crash .fileNameTooLong) w
      | .entry place entry =>
          match w.registered? home place with
          | some m => .ok m (w.log (.moduleCached (importedModule token) place.text))
          | none =>
              match readModule token (importedModule token) entry w with
              | .ok source v => loadModule levels run (w.interpreters.get home).loader token
                  (importedModule token) place source v
              | .error i v => .error i v := by
  cases hfound : w.findModule home (importedModule token) with
  | nothing | nameTooLong =>
      unfold importModule
      rw [get_run]
      simp only [hfound]
      rfl
  | entry place entry =>
      unfold importModule World.registered?
      rw [get_run]
      simp only [hfound]
      cases (w.loaders.get (w.interpreters.get home).loader).cached? place with
      | some m => rfl
      | none =>
          dsimp only
          rw [bind_run]
          cases readModule token (importedModule token) entry w <;> rfl

/-- An import ends as an import may, if no signal leaves it. -/
theorem importModule_ends
    (hsignal : ∀ c v, importModule (2 * levels) (statement patience levels) home token w ≠
      .error (.signal c) v) :
    w.ImportEnds patience levels home token (fun m a _ => a = m)
      (importModule (2 * levels) (statement patience levels) home token w) := by
  -- One case for each way in which the search and the reading of the file can end.
  rw [importModule_run] at hsignal ⊢
  cases hfound : w.findModule home (importedModule token) with
  | nothing =>
      have hnowhere : ∀ place entry,
          w.findModule home (importedModule token) ≠ .entry place entry := by
        intro place entry he
        rw [hfound] at he
        cases he
      exact ⟨rfl, .notFound hfound, fun place entry he => (hnowhere place entry he).elim⟩
  | nameTooLong => exact .inl ⟨_, rfl, rfl, .fileNameTooLong hfound⟩
  | entry place entry =>
      rw [hfound] at hsignal
      dsimp only at hsignal ⊢
      cases hm : w.registered? home place with
      | some m => exact ⟨m, ⟨place, entry, hfound, .inl hm⟩, rfl⟩
      | none =>
          have hkept : ∀ place' entry',
              w.findModule home (importedModule token) = .entry place' entry' →
              w.registered? home place' = none := by
            intro place' entry' hfound'
            cases hfound.symm.trans hfound'
            exact hm
          rw [hm] at hsignal
          dsimp only at hsignal ⊢
          rw [readModule_run] at hsignal ⊢
          cases entry with
          | directory => nomatch World.isFile_of_findModule hfound
          | unreadable reason => exact ⟨rfl, .unreadable hfound, hkept⟩
          | file bytes =>
              cases hsource : Text.decode? bytes with
              | none =>
                  simp only [hsource]
                  exact .inl ⟨_, rfl, rfl, .undecodableFile hfound hsource⟩
              | some source =>
                  simp only [hsource] at hsignal ⊢
                  exact loadModule_ends hfound hm hsource hsignal

end Eval

/-- No signal leaves an import of a lawful world. -/
theorem World.Lawful.importModule {w : World} (h : w.Lawful) (patience levels levels' : Nat)
    (home : Ref .interpreter) (token : Token) (c : Signal) (v : World) :
    Eval.importModule levels' (Eval.statement patience levels) home token w ≠
      .error (.signal c) v := by
  have hhandled : Handled [] (Handling.importModule [] (Handling.statement patience levels) levels'
      home token) ⟨w, []⟩ fun _ => True :=
    Handled.importModule (levelTaken patience levels).statement ⟨h, .nil⟩ (List.forall_mem_nil _)
  have herases : Watched.Erases
      (Handling.importModule [] (Handling.statement patience levels) levels' home token)
      (Eval.importModule levels' (Eval.statement patience levels) home token) :=
    Handling.importModule_erases (Handling.erases patience levels).statement
  intro hend
  have hforget := herases ⟨w, []⟩
  rw [hend] at hforget
  unfold Handled at hhandled
  cases hr : Handling.importModule [] (Handling.statement patience levels) levels' home token
      ⟨w, []⟩ with
  | ok m s =>
      rw [hr] at hforget
      cases hforget
  | error i s =>
      rw [hr] at hforget hhandled
      cases hforget
      exact hhandled.no_signal

/-- An import closes no scope. -/
theorem Watching.importModule_grows {current : Prop} {n : Nat} {s : Watched World Event}
    (h : Good current n s) (patience levels : Nat) (home : Ref .interpreter) (token : Token) :
    match Eval.importModule (2 * levels) (Eval.statement patience levels) home token s.state with
    | .ok _ v | .error _ v => s.state.scopes.size ≤ v.scopes.size := by
  have hsafe := importModule_safe home (levelSafe current patience levels).statement h (2 * levels)
    token
  have herases : Watched.Erases (importModule (2 * levels) (statement patience levels) home token)
      (Eval.importModule (2 * levels) (Eval.statement patience levels) home token) :=
    importModule_erases (erases patience levels).statement
  rw [← herases s]
  unfold Safe at hsafe
  cases hr : importModule (2 * levels) (statement patience levels) home token s with
  | ok m t =>
      rw [hr] at hsafe
      exact hsafe.1.grows.scopes
  | error i t =>
      rw [hr] at hsafe
      exact hsafe.1.grows.scopes

/-- For every import statement that is executed in a session, whatever files there are and whatever
they hold: the statement ends by binding the module that it reaches; or by a runtime error at its name,
which leaves its file unregistered and the world as it was, or as the unit of the module left it; or by
the crash for a name that no file can have or for a file that is no text; or by what cut the unit of
the module short, which is neither a runtime error nor a signal. -/
theorem import_binds_or_fails (steps : List SessionStep) (patience levels : Nat) :
    ∀ later earlier site keyword token as w, (Session.watch steps).notes =
        later ++ .node .reached site (.stmt (.importModule keyword token as)) w :: earlier →
      w.ImportEnds patience levels site.home token
        (fun m _ v => v.scopes.find? site.scope (importBinding token as) = some (.module m))
        (Eval.statement patience (levels + 1) site (.importModule keyword token as) w) := by
  intro later earlier site keyword token as w h
  obtain ⟨hgood, frames, hat⟩ := Session.noted (fun hc : False => hc.elim) h
  have hends : w.ImportEnds patience levels site.home token (fun m a _ => a = m) _ :=
    Eval.importModule_ends (hgood.lawful.importModule patience levels (2 * levels) site.home token)
  have hgrows := Watching.importModule_grows hgood patience levels site.home token
  change World.ImportEnds _ _ _ _ _ _ ((Eval.importModule (2 * levels) _ _ _ >>= fun m =>
    Eval.define site.scope (importBinding token as) (.module m)) w)
  rw [Eval.bind_run]
  cases hr : Eval.importModule (2 * levels) (Eval.statement patience levels) site.home token w with
  | error i v =>
      rw [hr] at hends
      cases i <;> exact hends
  | ok m v =>
      rw [hr] at hends hgrows
      obtain ⟨m', hreached, rfl⟩ := hends
      -- The name is bound in the scope of the statement, which is still there after the import.
      have hscope : site.scope.index < v.scopes.size :=
        Nat.lt_of_lt_of_le (hgood.sane.stands_lt hat.stands) hgrows
      exact ⟨m, hreached, Scopes.find?_define_self v.scopes _ _ hscope⟩

/-- Whether an import is reached that fails for a cause. -/
def Event.failsToImport (cause : RuntimeCause) : Event → Bool
  | .node .reached site (.stmt (.importModule keyword token as)) w =>
      match Eval.statement 9 10 site (.importModule keyword token as) w with
      | .error (.error e) _ => e.cause = cause
      | _ => false
  | _ => false

/-- A module that ends in a runtime error. -/
theorem import_binds_or_fails_failing : ∃ later earlier site keyword token as w e v,
    (Session.watch (.addLoader [] :: Session.withModules [("m.lox", "nil();")] "import m;")).notes =
      later ++ .node .reached site (.stmt (.importModule keyword token as)) w :: earlier ∧
    Eval.statement 9 10 site (.importModule keyword token as) w = .error (.error e) v ∧
    e.token = token ∧ w.ImportFails 9 9 site.home (importedModule token) (.moduleFailed "m") v ∧
    ∀ place entry, w.findModule site.home (importedModule token) = .entry place entry →
      (v.loaders.get (w.interpreters.get site.home).loader).cached? place = none := by
  have hfails : (Session.watch (.addLoader [] ::
      Session.withModules [("m.lox", "nil();")] "import m;")).notes.any
      (Event.failsToImport (.moduleFailed "m")) = true := by decide +kernel
  obtain ⟨event, hevent, hcheck⟩ := List.any_eq_true.mp hfails
  obtain ⟨later, earlier, hnotes⟩ := List.append_of_mem hevent
  unfold Event.failsToImport at hcheck
  split at hcheck
  · rename_i site keyword token as w
    have hends := import_binds_or_fails _ 9 9 later earlier site keyword token as w hnotes
    split at hcheck
    · rename_i e v hr
      rw [hr] at hends
      obtain ⟨htoken, hend, hgone⟩ := hends
      rw [of_decide_eq_true hcheck] at hend
      exact ⟨later, earlier, site, keyword, token, as, w, e, v, hnotes, hr, htoken, hend, hgone⟩
    · cases hcheck
  · cases hcheck

end Treewalk
