import Treewalk.Proofs.Run.Sessions
import Treewalk.Proofs.Pieces.Carrying
import Treewalk.Proofs.Pieces.Resolving
import Treewalk.Proofs.Pieces.Scanning

/-!
# Joined units

What an accepted unit binds outside of all scopes is a global to name resolution. So a unit that is
accepted behind an accepted one, which has left no other globals, is accepted in one piece with it:
the statements of both are one list, the second ones as many lines further down as the first text
has.
-/
namespace Treewalk

namespace Resolve
variable {α : Type} {s t : Scoping} {levels : Nat}

/-! ### Globals -/

/-- Between a change of the surroundings and the change back. -/
theorem around_ok {enter : Scoping → Scoping} {leave : Scoping → Scoping → Scoping} {p : Resolve α}
    {a : α} (h : (do
      let before ← get
      modify enter
      let a ← p
      modify (leave before)
      return a : Resolve α) s = .ok a t) : ∃ u, p (enter s) = .ok a u ∧ t = leave s u := by
  obtain ⟨_, _, hget, h⟩ := Watched.bind_ok h
  cases hget
  obtain ⟨_, _, henter, h⟩ := Watched.bind_ok h
  cases henter
  obtain ⟨b, u, hp, h⟩ := Watched.bind_ok h
  cases h
  exact ⟨u, hp, rfl⟩

/-- After an error, or without one. -/
theorem checking_ok {c : Scoping → Prop} [DecidablePred c] {token : Token} {error : StaticError}
    {p : Resolve α} {a : α} (h : (get >>= fun s =>
      if c s then Resolve.report token error >>= fun _ => p else p) s = .ok a t) :
    ∃ u, p u = .ok a t := by
  obtain ⟨_, _, hget, h⟩ := Watched.bind_ok h
  cases hget
  by_cases hcs : c s
  · rw [if_pos hcs] at h
    obtain ⟨_, u, -, h⟩ := Watched.bind_ok h
    exact ⟨u, h⟩
  · rw [if_neg hcs] at h
    exact ⟨s, h⟩

/-- A name that is bound outside of all scopes is a global. -/
theorem bound_global {token : Token} {name : String} {u : Unit}
    (h : Resolve.bind token name s = .ok u t) (hs : s.scopes = []) : name ∈ t.globals := by
  cases h
  exact Scoping.mem_globals_define ((s.restored_declare token name).scopes_nil hs) name

theorem restored_expression {e e' : Expr} (h : expression levels e s = .ok e' t) : s.Restored t :=
  ((levelResembles 0 levels).expression e).restored h

theorem restored_statement {st st' : Stmt} (h : statement levels st s = .ok st' t) :
    s.Restored t := ((levelResembles 0 levels).statement st).restored h

theorem functionBody_name {context : FunctionContext} {f f' : FunctionDecl}
    (h : functionBody levels context f s = .ok f' t) : f'.name = f.name := by
  cases levels with
  | zero => cases h
  | succ levels =>
      obtain ⟨name, parameters, body⟩ := f
      unfold functionBody at h
      obtain ⟨_, hscope, -⟩ := around_ok h
      obtain ⟨_, _, -, hinside⟩ := Watched.bind_ok hscope
      obtain ⟨_, _, hmade, hleave⟩ := Watched.bind_ok hinside
      obtain ⟨_, _, -, hbody⟩ := Watched.bind_ok hmade
      obtain ⟨_, _, -, hlast⟩ := Watched.bind_ok hbody
      cases hlast
      cases hleave
      rfl

/-- What a statement binds outside of all scopes is a global, once it is resolved without errors. -/
def BindsGlobals (levels : Nat) (st : Stmt) : Prop :=
  ∀ ⦃s t : Scoping⦄ ⦃st' : Stmt⦄, statement levels st s = .ok st' t → s.scopes = [] → t.Clean →
    ∀ x ∈ st'.binds, x ∈ t.globals

namespace BindsGlobals

/-- A statement that binds nothing once it is resolved. -/
theorem of_binds_nil {st : Stmt}
    (h : ∀ ⦃s t st'⦄, statement levels st s = .ok st' t → st'.binds = []) :
    BindsGlobals levels st := by
  intro s t st' hst _ _
  rw [h hst]
  exact List.forall_mem_nil _

theorem var (mutability : Mutability) (name : Token) (initial : Option Expr) :
    BindsGlobals (levels + 1) (.var mutability name initial) := by
  intro s t st' h hs _
  unfold statement at h
  obtain ⟨_, u, hdeclare, h⟩ := Watched.bind_ok h
  obtain ⟨initial', v, hinitial, h⟩ := Watched.bind_ok h
  obtain ⟨_, w, hdefine, h⟩ := Watched.bind_ok h
  cases hdeclare
  cases hdefine
  cases h
  have hrestored : Scoping.Restored _ v := Resembles.restored (.optionDown
    (g := fun e => Resolve.initializing name.lexeme (expression levels e))
    fun e => ((levelResembles 0 levels).expression e).initializing) hinitial
  refine List.forall_mem_singleton.mpr ?_
  rw [Scoping.globals_setMutability]
  exact Scoping.mem_globals_define (hrestored.scopes_nil
    ((s.restored_declare name name.lexeme).scopes_nil hs)) name.lexeme

theorem ifThen (condition : Expr) {thenBranch : Stmt} (hthen : BindsGlobals levels thenBranch) :
    BindsGlobals (levels + 1) (.if condition thenBranch none) := by
  intro s t st' h hs hc
  unfold statement at h
  obtain ⟨_, u, hcondition, h⟩ := Watched.bind_ok h
  obtain ⟨then', v, hbranch, h⟩ := Watched.bind_ok h
  obtain ⟨_, _, hother, h⟩ := Watched.bind_ok h
  cases hother
  cases h
  exact fun x hx => hthen hbranch ((restored_expression hcondition).scopes_nil hs) hc x hx

theorem ifElse (condition : Expr) {thenBranch elseBranch : Stmt}
    (hthen : BindsGlobals levels thenBranch) (helse : BindsGlobals levels elseBranch) :
    BindsGlobals (levels + 1) (.if condition thenBranch (some elseBranch)) := by
  intro s t st' h hs hc
  unfold statement at h
  obtain ⟨_, u, hcondition, h⟩ := Watched.bind_ok h
  obtain ⟨then', v, hbranch, h⟩ := Watched.bind_ok h
  obtain ⟨_, w, hother, h⟩ := Watched.bind_ok h
  cases h
  obtain ⟨else', _, hother, h⟩ := Watched.bind_ok hother
  cases h
  have hu : u.scopes = [] := (restored_expression hcondition).scopes_nil hs
  have hv : v.scopes = [] := (restored_statement hbranch).scopes_nil hu
  have hcv : v.Clean := (((legal levels).statement elseBranch _ _ _ hother).2.2 hc).1
  intro x hx
  rcases List.mem_append.mp hx with hx | hx
  · exact (restored_statement hother).globals (hthen hbranch hu hcv x hx)
  · exact helse hother hv hc x hx

theorem loop (condition : Expr) {body : Stmt} (increment : Option Expr)
    (hbody : BindsGlobals levels body) :
    BindsGlobals (levels + 1) (.while condition body increment) := by
  intro s t st' h hs hc
  unfold statement at h
  obtain ⟨u, hinside, ht⟩ := around_ok h
  obtain ⟨_, v, hcondition, hinside⟩ := Watched.bind_ok hinside
  obtain ⟨body', w, hround, hinside⟩ := Watched.bind_ok hinside
  obtain ⟨_, _, hincrement, hinside⟩ := Watched.bind_ok hinside
  cases hinside
  subst ht
  have hv : v.scopes = [] := (restored_expression hcondition).scopes_nil hs
  have hrestored := Resembles.restored (.optionDown (levelResembles 0 levels).expression) hincrement
  have hcw : w.Clean := ((Checks.optional (fun e _ => (legal levels).expression e)
    _ _ _ hincrement).2.2 hc).1
  exact fun x hx => hrestored.globals (hbody hround hv hcw x hx)

theorem function {declaration : FunctionDecl} (hsome : declaration.name.isSome = true) :
    BindsGlobals (levels + 1) (.function declaration) := by
  intro s t st' h hs _
  obtain ⟨name, hname⟩ := Option.isSome_iff_exists.mp hsome
  unfold statement at h
  simp only [hname] at h
  obtain ⟨_, u, hbind, h⟩ := Watched.bind_ok h
  obtain ⟨f', v, hbody, h⟩ := Watched.bind_ok h
  cases h
  refine List.forall_mem_singleton.mpr ?_
  unfold FunctionDecl.displayName
  rw [functionBody_name hbody, hname]
  exact (((levelResembles 0 levels).functionBody _ _).restored hbody).globals (bound_global hbind hs)

/-- The methods of a class are resolved in a scope of their own. -/
theorem methods_restored {methods fs : List FunctionDecl}
    (h : Resolve.inScope ["this"] (methods.mapM (method levels)) s = .ok fs t) : s.Restored t :=
  (Resembles.inScope (.mapDown (levelResembles 0 levels).method)).restored h

theorem classBase (name : Token) (methods : List FunctionDecl) :
    BindsGlobals (levels + 1) (.class name none methods) := by
  intro s t st' h hs _
  unfold statement at h
  obtain ⟨u, hinside, ht⟩ := around_ok h
  obtain ⟨_, v, hbind, hinside⟩ := Watched.bind_ok hinside
  obtain ⟨_, w, hfs, hinside⟩ := Watched.bind_ok hinside
  cases hinside
  subst ht
  exact List.forall_mem_singleton.mpr ((methods_restored hfs).globals (bound_global hbind hs))

/-- What is left of a class statement once its name is bound, its superclass named and checked. -/
theorem derived_restored {name : Token} {use : NameUse} {methods : List FunctionDecl} {st' : Stmt}
    (h : (do
      let superclass ← Resolve.read use
      return Stmt.class name (some superclass) (← Resolve.inScope ["super"]
        (Resolve.inScope ["this"] (methods.mapM (method levels)))) : Resolve Stmt) s = .ok st' t) :
    st'.binds = [name.lexeme] ∧ s.Restored t := by
  obtain ⟨_, w, hread, h⟩ := Watched.bind_ok h
  obtain ⟨_, w', hfs, h⟩ := Watched.bind_ok h
  cases h
  refine ⟨rfl, ((Resembles.read (n := 0) use).restored hread).trans ?_⟩
  exact (Resembles.inScope (.inScope (.mapDown (levelResembles 0 levels).method))).restored hfs

theorem classDerived (name : Token) (use : NameUse) (methods : List FunctionDecl) :
    BindsGlobals (levels + 1) (.class name (some use) methods) := by
  intro s t st' h hs _
  unfold statement at h
  obtain ⟨u, hinside, ht⟩ := around_ok h
  obtain ⟨_, v, hbind, hinside⟩ := Watched.bind_ok hinside
  have hname : name.lexeme ∈ v.globals := bound_global hbind hs
  subst ht
  by_cases hself : use.name.lexeme = name.lexeme
  · simp only [hself, if_true] at hinside
    obtain ⟨_, w, hreport, hinside⟩ := Watched.bind_ok hinside
    cases hreport
    obtain ⟨hbinds, hrestored⟩ := derived_restored hinside
    rw [hbinds]
    exact List.forall_mem_singleton.mpr (hrestored.globals hname)
  · simp only [hself, if_false] at hinside
    obtain ⟨hbinds, hrestored⟩ := derived_restored hinside
    rw [hbinds]
    exact List.forall_mem_singleton.mpr (hrestored.globals hname)

theorem importModule (keyword name : Token) (as : Option Token) :
    BindsGlobals (levels + 1) (.importModule keyword name as) := by
  intro s t st' h hs hc
  unfold statement at h
  cases herror : importNameError? (importedModule name) as.isSome with
  | some error =>
      simp only [herror] at h
      obtain ⟨_, _, hreport, h⟩ := Watched.bind_ok h
      cases hreport
      cases h
      exact (Scoping.not_clean_report s _ _ hc).elim
  | none =>
      simp only [herror] at h
      obtain ⟨_, _, hbind, h⟩ := Watched.bind_ok h
      cases h
      exact List.forall_mem_singleton.mpr (bound_global hbind hs)

end BindsGlobals

/-- What a resolved statement binds outside of all scopes is a global. -/
theorem binds_defined (levels : Nat) {st : Stmt} (hraw : (Node.stmt st).Unresolved) :
    BindsGlobals levels st := by
  induction levels generalizing st with
  | zero => exact fun _ _ _ h => nomatch h
  | succ levels ih =>
      cases st with
      | expression e | print e | block body =>
          refine .of_binds_nil fun s t st' h => ?_
          unfold statement at h
          obtain ⟨_, _, -, h⟩ := Watched.bind_ok h
          cases h
          rfl
      | «break» keyword | «continue» keyword =>
          refine .of_binds_nil fun s t st' h => ?_
          unfold statement at h
          obtain ⟨_, h⟩ := checking_ok h
          cases h
          rfl
      | «return» keyword value =>
          refine .of_binds_nil fun s t st' h => ?_
          unfold statement at h
          obtain ⟨_, _, -, h⟩ := Watched.bind_ok h
          obtain ⟨_, h⟩ := checking_ok h
          obtain ⟨_, _, -, h⟩ := Watched.bind_ok h
          cases h
          rfl
      | var mutability name initial => exact .var mutability name initial
      | «if» condition thenBranch elseBranch =>
          have hpart : ∀ m ∈ (Stmt.if condition thenBranch elseBranch).parts, m.Unresolved :=
            fun m hm => hraw.inner (.part hm)
          have hthen := ih (hpart (.stmt thenBranch) (by simp [Stmt.parts]))
          cases elseBranch with
          | none => exact .ifThen condition hthen
          | some elseBranch =>
              exact .ifElse condition hthen (ih (hpart (.stmt elseBranch) (by simp [Stmt.parts])))
      | «while» condition body increment =>
          exact .loop condition increment (ih (hraw.inner (.part (by simp [Node.parts, Stmt.parts]))))
      | function declaration => exact .function hraw.here.1.1
      | «class» name superclass methods =>
          cases superclass with
          | none => exact .classBase name methods
          | some use => exact .classDerived name use methods
      | importModule keyword name as => exact .importModule keyword name as

/-- So is what statements bind. -/
theorem statements_defined {body body' : List Stmt} (hraw : ∀ st ∈ body, (Node.stmt st).Unresolved)
    (h : body.mapM (statement levels) s = .ok body' t) (hs : s.scopes = []) (hc : t.Clean) :
    ∀ st ∈ body', ∀ x ∈ st.binds, x ∈ t.globals := by
  induction body generalizing s body' with
  | nil =>
      cases h
      exact fun _ hst => nomatch hst
  | cons st body ih =>
      rw [List.mapM_cons] at h
      obtain ⟨st', u, hst, h⟩ := Watched.bind_ok h
      obtain ⟨others, v, hothers, h⟩ := Watched.bind_ok h
      cases h
      obtain ⟨hst_raw, hraw⟩ := List.forall_mem_cons.mp hraw
      have hrest := (statements_resemble 0 levels body).restored hothers
      have hcu : u.Clean := ((Checks.mapM (fun st _ => (legal levels).statement st)
        _ _ _ hothers).2.2 hc).1
      refine List.forall_mem_cons.mpr ⟨fun x hx => ?_, ?_⟩
      · exact hrest.globals (binds_defined levels hst_raw hst hs hcu x hx)
      · exact ih hraw hothers ((restored_statement hst).scopes_nil hs)

end Resolve

/-! ### Accepted texts -/

namespace UnitText

/-- A text is scanned, read and resolved without an error; what the statements are, and the state
of name resolution in the end. -/
structure Accepted (t : UnitText) (body : List Stmt) (s : Scoping) : Prop where
  faultless : (scan t.source).faults = []
  read : t.parsed = ⟨body, []⟩
  resolved : body.mapM (Resolve.statement (t.levels / 2)) t.start = .ok t.unit.statements s
  clean : s.Clean
  constants : t.unit.constants = s.globalConstants

theorem accepted {t : UnitText} (h : t.unit.ok = true) : ∃ body s, t.Accepted body s := by
  obtain ⟨s, hs⟩ := resolution_ok h
  refine ⟨t.parsed.statements, s.state, (List.append_eq_nil_iff.mp (errors_nil h)).1, ?_,
    hs.run, hs.clean, hs.constants⟩
  rw [← reports_nil h]

/-- A text is accepted, and makes a unit of these statements that leaves these constants. -/
structure Makes (t : UnitText) (statements : List Stmt) (constants : List String) : Prop where
  ok : t.unit.ok = true
  statements : t.unit.statements = statements
  constants : t.unit.constants = constants

theorem makes_of_resolved {t : UnitText} {body body' : List Stmt} {s : Scoping}
    (hfaultless : (scan t.source).faults = []) (hread : t.parsed = ⟨body, []⟩)
    (hresolved : body.mapM (Resolve.statement (t.levels / 2)) t.start = .ok body' s)
    (hclean : s.Clean) :
    t.Makes body' s.globalConstants := by
  unfold parsed at hread
  have hunit : t.unit = (CompiledUnit.resolve t.levels t.file (scan t.source) body t.globals
      t.constants).1 := by
    unfold unit CompiledUnit.ofSource
    simp only [hfaultless, hread, List.append_nil, List.isEmpty_nil, if_true]
  unfold CompiledUnit.resolve at hunit
  unfold start at hresolved
  simp only [hresolved] at hunit
  refine ⟨?_, ?_, ?_⟩
  · rw [hunit]
    exact beq_iff_eq.mpr hclean
  · rw [hunit]
  · rw [hunit]

/-- The same text some lines further down. -/
def below (n : Nat) (t : UnitText) : UnitText :=
  { t with source := lineFeeds n ++ t.source }

/-- A text with another one on the next line. -/
def followed (t : UnitText) (source : String) : UnitText :=
  { t with source := t.source ++ "\n" ++ source }

/-- It makes the same unit, some lines further down. -/
theorem below_makes {t : UnitText} (h : t.unit.ok = true) (n : Nat) :
    (t.below n).Makes (t.unit.statements.map (Stmt.down n)) t.unit.constants := by
  obtain ⟨body, s, ha⟩ := accepted h
  have hscan := scan_below n ha.faultless
  have hfaultless : (scan (t.below n).source).faults = [] := congrArg Scanned.faults hscan
  have hread : (t.below n).parsed = ⟨body.map (Stmt.down n), []⟩ := by
    unfold parsed below
    rw [hscan]
    exact parseTokens_down ha.read n _
  have hresolved := Resolve.statements_resemble n (t.levels / 2) body _ _
    (Scoping.Covers.refl t.start)
  rw [ha.resolved] at hresolved
  generalize hr : (body.map (Stmt.down n)).mapM (Resolve.statement (t.levels / 2)) t.start = r
    at hresolved
  cases hresolved with
  | ok hmoved hcovers _ =>
      subst hmoved
      have hmakes := makes_of_resolved (t := t.below n) hfaultless hread hr
        (hcovers.clean ha.clean)
      rw [hcovers.constants, ← ha.constants] at hmakes
      exact hmakes

/-- After an accepted text, name resolution knows at least what the next one may see. -/
theorem Accepted.covers {t t' : UnitText} {body : List Stmt} {s : Scoping} (ha : t.Accepted body s)
    (h : t.unit.ok = true) (hconstants : t'.constants = t.unit.constants)
    (hglobals : ∀ x ∈ t'.globals, x ∈ t.globals ∨ ∃ st ∈ t.unit.statements, x ∈ st.binds) :
    t'.start.Covers s := by
  have hraw : ∀ st ∈ body, (Node.stmt st).Unresolved := by
    have hraw := unresolved h
    rw [ha.read] at hraw
    exact hraw
  have hrestored := (Resolve.statements_resemble 0 (t.levels / 2) body).restored ha.resolved
  have hdefined := Resolve.statements_defined hraw ha.resolved rfl ha.clean
  constructor
  case scopes => exact hrestored.scopes_nil rfl
  case globals =>
    intro x hx
    rcases hglobals x hx with hx | ⟨st, hst, hx⟩
    · exact hrestored.globals hx
    · exact hdefined st hst x hx
  case constants => exact ha.constants.symm.trans hconstants.symm
  case initializing => exact List.subset_nil.mp hrestored.initializing
  case function => exact hrestored.function
  case classContext => exact hrestored.classContext
  case inLoop => exact hrestored.inLoop
  case errors => exact Nat.le_of_eq ha.clean

section
variable {t t' : UnitText}

/-- Two texts are scanned and read as one. -/
theorem followed_read {body body' : List Stmt} {s s' : Scoping} (ha : t.Accepted body s)
    (ha' : t'.Accepted body' s') (hlevels : t'.levels = t.levels) :
    (scan (t.followed t'.source).source).faults = [] ∧ (t.followed t'.source).parsed =
      ⟨body ++ body'.map (Stmt.down (lineCount t.source)), []⟩ := by
  have hscan := scan_joined ha.faultless ha'.faultless
  refine ⟨congrArg Scanned.faults hscan, ?_⟩
  have hread := ha'.read
  unfold parsed at hread
  rw [hlevels] at hread
  unfold parsed followed
  rw [hscan]
  exact parseTokens_append ha.read hread _ _

variable (h : t.unit.ok = true) (h' : t'.unit.ok = true) (hlevels : t'.levels = t.levels)
include h h' hlevels

/-- They make one unit, if the second one sees no globals and constants but those that the first one
leaves. -/
theorem followed_makes (hconstants : t'.constants = t.unit.constants)
    (hglobals : ∀ x ∈ t'.globals, x ∈ t.globals ∨ ∃ st ∈ t.unit.statements, x ∈ st.binds) :
    (t.followed t'.source).Makes
      (t.unit.statements ++ t'.unit.statements.map (Stmt.down (lineCount t.source)))
      t'.unit.constants := by
  obtain ⟨body, s, ha⟩ := accepted h
  obtain ⟨body', s', ha'⟩ := accepted h'
  obtain ⟨hfaultless, hread⟩ := followed_read ha ha' hlevels
  have hmore := Resolve.statements_resemble (lineCount t.source) (t.levels / 2) body' _ s
    (ha.covers h hconstants hglobals)
  have hsecond := ha'.resolved
  rw [hlevels] at hsecond
  rw [hsecond] at hmore
  generalize hr : (body'.map (Stmt.down (lineCount t.source))).mapM
    (Resolve.statement (t.levels / 2)) s = r at hmore
  cases hmore with
  | @ok _ _ _ u hmoved hcovers _ =>
      subst hmoved
      have hboth : (body ++ body'.map (Stmt.down (lineCount t.source))).mapM
          (Resolve.statement (t.levels / 2)) t.start = .ok (t.unit.statements ++
            t'.unit.statements.map (Stmt.down (lineCount t.source))) u := by
        rw [List.mapM_append]
        exact Watched.ok_bind ha.resolved (Watched.ok_bind hr rfl)
      have hmakes := makes_of_resolved (t := t.followed t'.source) hfaultless hread hboth
        (hcovers.clean ha'.clean)
      rw [hcovers.constants, ← ha'.constants] at hmakes
      exact hmakes

/-- If they are accepted as one, the statements of the first one are resolved likewise. -/
theorem followed_begins (hok : (t.followed t'.source).unit.ok = true) :
    ∃ others, (t.followed t'.source).unit.statements = t.unit.statements ++ others := by
  obtain ⟨body, s, ha⟩ := accepted h
  obtain ⟨body', s', ha'⟩ := accepted h'
  obtain ⟨-, hread⟩ := followed_read ha ha' hlevels
  obtain ⟨both, u, hboth⟩ := accepted hok
  have hsame := hboth.read
  rw [hread] at hsame
  cases hsame
  have hresolved := hboth.resolved
  rw [List.mapM_append] at hresolved
  obtain ⟨first, v, hfirst, hresolved⟩ := Watched.bind_ok hresolved
  obtain ⟨others, w, hothers, hresolved⟩ := Watched.bind_ok hresolved
  have hunit : first ++ others = (t.followed t'.source).unit.statements :=
    (EStateM.Result.ok.inj hresolved).1
  have hstatements : first = t.unit.statements :=
    (EStateM.Result.ok.inj (hfirst.symm.trans ha.resolved)).1
  exact ⟨others, by rw [← hunit, hstatements]⟩

end

end UnitText
end Treewalk
