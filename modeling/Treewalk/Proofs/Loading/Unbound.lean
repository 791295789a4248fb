import Mathlib.Data.List.Induction
import Treewalk.Proofs.Control.Status
import Treewalk.Proofs.Loading.Constants
import Treewalk.Proofs.Pieces.Running

/-!
# Constants without a value

An interpreter takes over the constants of an accepted unit before it executes the statements that
bind them. So every constant is bound but those of a unit that was interrupted before it came to
the end of their declarations.
-/
namespace Treewalk

/-- A declaration that was executed has bound its name. -/
theorem Eval.contains_var {patience levels : Nat} {site : Site} {m : Mutability} {name : Token}
    {initial : Option Expr} {w w' : World}
    (h : statement patience levels site (.var m name initial) w = .ok () w')
    (hscope : site.scope.index < w'.scopes.size) :
    w'.scopes.contains site.scope name.lexeme = true := by
  cases levels with
  | zero => cases h
  | succ levels =>
      have hdefine : ∃ v t, define site.scope name.lexeme v t = .ok () w' := by
        unfold statement at h
        cases initial with
        | none => exact ⟨.nil, w, h⟩
        | some e =>
            obtain ⟨v, t, -, hdefine⟩ := Watched.bind_ok h
            exact ⟨v, t, hdefine⟩
      obtain ⟨v, t, hdefine⟩ := hdefine
      cases hdefine
      have hsize : site.scope.index < t.scopes.size :=
        Nat.lt_of_lt_of_eq hscope (Arena.size_set ..)
      exact (Scopes.contains_define _ _ _ _ v hsize).mpr (.inr ⟨rfl, rfl⟩)

/-- Constants are declared by declarations of variables only. -/
theorem Eval.contains_constant {patience levels : Nat} {site : Site} {st : Stmt} {c : String}
    {w w' : World} (hc : (c, .constant) ∈ st.declares)
    (h : statement patience levels site st w = .ok () w')
    (hscope : site.scope.index < w'.scopes.size) : w'.scopes.contains site.scope c = true := by
  cases st with
  | var m name initial =>
      cases List.mem_singleton.mp hc
      exact contains_var h hscope
  | function | «class» | importModule => cases List.mem_singleton.mp hc
  | _ => cases hc

/-! ### Units -/

/-- The statements of a unit do not come to the end of the declaration of a constant: it is
interrupted, or a statement before it is. -/
def World.StopsBefore (w : World) (home : Ref .interpreter) (u : CompiledUnit) (c : String) : Prop :=
  let run := Eval.statement grantedRounds (nestingLimit / 2) ⟨home, w.globals home⟩
  ∃ first st rest i t t', u.statements = first ++ st :: rest ∧
    (c, .constant) ∈ declarations (st :: rest) ∧
    first.forM run (w.prepare home u) = .ok () t ∧ run st t = .error i t'

section
variable {s : Watched World Event} {home : Ref .interpreter} {text : UnitText} {c : String}

/-- What is bound stays bound while the rest of a unit runs, however that ends. -/
theorem Underway.keeps {globals : Ref .scope} {known : String → Prop} {done rest : List Stmt}
    (h : Underway False 0 home text globals known done s) (hok : text.unit.ok = true)
    (he : text.unit.statements = done ++ rest) {x : String}
    (hx : s.state.scopes.contains globals x = true) :
    match rest.forM (Eval.statement grantedRounds (nestingLimit / 2) ⟨home, globals⟩) s.state with
    | .ok _ w | .error _ w => w.scopes.contains globals x = true := by
  let watched := rest.forM (Watching.begin (Watching.statement grantedRounds (nestingLimit / 2))
    ⟨home, globals⟩ text)
  have herases : Watched.forget (watched s) = rest.forM
      (Eval.statement grantedRounds (nestingLimit / 2) ⟨home, globals⟩) s.state :=
    Watched.Erases.forM (fun st => Watched.Erases.noting _
      ((Watching.erases grantedRounds (nestingLimit / 2)).statement _ st)) rest s
  have hsafe : Safe False 0 watched s _ := Watching.statements_safe
    (Watching.levelSafe False grantedRounds (nestingLimit / 2)).statement (Nat.zero_le _) hok rest
    (he.trans (by rw [List.append_nil])) h
  rw [← herases]
  unfold Safe at hsafe
  cases hr : watched s with
  | ok a t =>
      rw [hr] at hsafe
      exact hsafe.1.grows.holds _ x hx
  | error i t =>
      rw [hr] at hsafe
      exact hsafe.1.grows.holds _ x hx

/-- When an accepted unit has been executed, each of its constants is bound, or the unit stopped
before. -/
theorem Good.bound_or_stopped (h : Good False 0 s) (hhome : home.index < s.state.interpreters.size)
    (hok : text.unit.ok = true) (hc : (c, .constant) ∈ declarations text.unit.statements) :
    (s.state.execute home text.unit).2.scopes.contains (s.state.globals home) c = true ∨
      s.state.StopsBefore home text.unit c := by
  let start := s.state.prepare home text.unit
  let run := Eval.statement grantedRounds (nestingLimit / 2) ⟨home, s.state.globals home⟩
  obtain ⟨st, hst, hdeclares⟩ := List.mem_flatMap.mp hc
  obtain ⟨first, rest, he⟩ := List.append_of_mem hst
  cases hfirst : first.forM run start with
  | error i t =>
      obtain ⟨before, st', after, u, hsplit, hbefore, hstop⟩ := Watched.forM_error hfirst
      have hwhole : text.unit.statements = before ++ st' :: (after ++ st :: rest) := by
        rw [he, hsplit, List.append_assoc]
        rfl
      have hlater : (c, .constant) ∈ declarations (st' :: (after ++ st :: rest)) := by
        refine List.mem_flatMap.mpr ⟨st, List.mem_cons_of_mem _ ?_, hdeclares⟩
        exact List.mem_append_right _ (List.mem_cons_self ..)
      exact .inr ⟨before, st', _, i, u, t, hwhole, hlater, hbefore, hstop⟩
  | ok a t =>
      cases hrun : run st t with
      | error i t' =>
          have hlater : (c, .constant) ∈ declarations (st :: rest) :=
            List.mem_flatMap.mpr ⟨st, List.mem_cons_self .., hdeclares⟩
          exact .inr ⟨first, st, rest, i, t, t', he, hlater, hfirst, hrun⟩
      | ok b t' =>
          left
          have hdone : (first ++ [st]).forM run start = .ok () t' :=
            (Watched.forM_append hfirst [st]).trans (Watched.ok_bind hrun rfl)
          have hwhole : text.unit.statements = (first ++ [st]) ++ rest := by
            rw [he, List.append_assoc]
            rfl
          obtain ⟨notes, hunderway⟩ := h.underway hhome hok hwhole hdone
          have hscope : (s.state.globals home).index < t'.scopes.size := by
            rw [← hunderway.globals]
            exact (hunderway.good.sane.globals home hunderway.started).1
          have hbound : t'.scopes.contains (s.state.globals home) c = true :=
            Eval.contains_constant hdeclares hrun hscope
          have hall : s.state.statements home text.unit = rest.forM run t' := by
            unfold World.statements
            dsimp only
            rw [s.state.globals_prepare _ hhome, hwhole]
            exact Watched.forM_append hdone rest
          have hkeeps := hunderway.keeps hok hwhole hbound
          change match rest.forM run t' with | .ok _ w | .error _ w => _ at hkeeps
          rw [s.state.execute_accepted home hok, hall]
          cases hr : rest.forM run t' with
          | ok a v =>
              rw [hr] at hkeeps
              exact hkeeps
          | error i v =>
              rw [hr] at hkeeps
              cases i <;> exact hkeeps

/-! ### Sessions -/

/-- A global stays bound in every step. -/
theorem SessionStep.bound_play (h : Good False 0 s) (step : SessionStep)
    (hhome : home.index < s.state.interpreters.size) :
    (step.play s.state).2.globals home = s.state.globals home ∧
      ∀ x, s.state.scopes.contains (s.state.globals home) x = true →
        (step.play s.state).2.scopes.contains (s.state.globals home) x = true := by
  have hgrows := (step.watch_safe h False.elim).1.grows
  rw [← step.watch_erases s]
  exact ⟨hgrows.globals home hhome, hgrows.holds _⟩

/-- A constant of a unit that is accepted and run is bound, or the unit stopped before. -/
theorem SessionStep.run_bound_or_stopped {file source : String} (h : Good False 0 s)
    (hhome : home.index < s.state.interpreters.size) (hok : s.state.Accepts home file source)
    (hc : (c, .constant) ∈ declarations (s.state.text nestingLimit home file source).unit.statements) :
    let w := (SessionStep.run home file source |>.play s.state).2
    w.scopes.contains (w.globals home) c = true ∨
      (s.state.compile nestingLimit home file source).2.StopsBefore home
        (s.state.text nestingLimit home file source).unit c := by
  have halike := s.state.alike_compile nestingLimit home file source
  have hprepared := h.alike halike
  have hstill := Nat.lt_of_lt_of_le hhome hprepared.grows.interpreters
  have hplay : ((SessionStep.run home file source).play s.state).2 =
      ((s.state.compile nestingLimit home file source).2.execute home
        (s.state.text nestingLimit home file source).unit).2 :=
    congrArg Prod.snd (if_pos hhome)
  have hglobals := (bound_play h (.run home file source) hhome).1
  intro w
  rw [show w.globals home = _ from hglobals, show w = _ from hplay,
    ← hprepared.grows.globals home hhome]
  exact hprepared.good.bound_or_stopped hstill hok hc

end

namespace Session
variable {start steps : List SessionStep} {home : Ref .interpreter} {c : String}

/-- After some steps, one of the following ones runs an accepted unit in an interpreter that stops
before a constant. -/
def StopsBefore (start : List SessionStep) (home : Ref .interpreter) (c : String)
    (steps : List SessionStep) : Prop :=
  ∃ early file source late, steps = early ++ .run home file source :: late ∧
    let w := play (start ++ early)
    w.Accepts home file source ∧ (w.compile nestingLimit home file source).2.StopsBefore home
      (w.text nestingLimit home file source).unit c

theorem StopsBefore.append (h : StopsBefore start home c steps) (more : List SessionStep) :
    StopsBefore start home c (steps ++ more) := by
  obtain ⟨early, file, source, late, rfl, hstops⟩ := h
  exact ⟨early, file, source, late ++ more, List.append_assoc .., hstops⟩

/-- Where all constants are bound, all that are declared later are but for those before which a unit
stopped. -/
theorem bound_or_stopped (hhome : home.index < (play start).interpreters.size)
    (hbound : ∀ c ∈ ((play start).interpreters.get home).constants,
      (play start).scopes.contains ((play start).globals home) c = true)
    (hsteps : ∀ step ∈ steps, step.Current) :
    let w := play (start ++ steps)
    home.index < w.interpreters.size ∧ ∀ c ∈ (w.interpreters.get home).constants,
      w.scopes.contains (w.globals home) c = true ∨ StopsBefore start home c steps := by
  -- From the end: a constant is new with the last step, or was one before and is still as it was.
  induction steps using List.reverseRecOn with
  | nil =>
      rw [List.append_nil]
      exact ⟨hhome, fun c hc => .inl (hbound c hc)⟩
  | append_singleton steps step ih =>
      obtain ⟨hstill, hknown⟩ := ih fun step hstep => hsteps step (List.mem_append_left _ hstep)
      have hcurrent : step.Current :=
        hsteps step (List.mem_append_right _ (List.mem_singleton_self _))
      have hplay : play (start ++ (steps ++ [step])) = (step.play (play (start ++ steps))).2 := by
        rw [← List.append_assoc]
        exact play_append ..
      have hgood : Good False 0 (watch (start ++ steps)) := watch_good False.elim
      rw [hplay]
      have hstate : play (start ++ steps) = (watch (start ++ steps)).state := (watch_state _).symm
      rw [hstate] at hstill hknown ⊢
      generalize watch (start ++ steps) = s at *
      obtain ⟨hsize, hconstants⟩ := step.constants_play hstill
      obtain ⟨hglobals, hkept⟩ := step.bound_play hgood hstill
      refine ⟨hsize, fun c hc => ?_⟩
      have hold (hc : c ∈ (s.state.interpreters.get home).constants) :
          (step.play s.state).2.scopes.contains ((step.play s.state).2.globals home) c = true ∨
            StopsBefore start home c (steps ++ [step]) := by
        rw [hglobals]
        exact (hknown c hc).imp (hkept c) fun hstops => hstops.append [step]
      rw [hconstants] at hc
      cases haccepted : step.accepted? s.state home with
      | none =>
          rw [haccepted] at hc
          exact hold hc
      | some text =>
          rw [haccepted] at hc
          cases step with
          | run home' file source =>
              obtain ⟨⟨rfl, hok⟩, he⟩ := Option.ite_none_right_eq_some.mp haccepted
              cases he
              rcases (UnitText.mem_constants hok c).mp hc with hc | hc
              · exact hold hc
              · refine (SessionStep.run_bound_or_stopped hgood hstill hok hc).imp_right fun hstops => ?_
                refine ⟨steps, file, source, [], rfl, ?_⟩
                rw [hstate]
                exact ⟨hok, hstops⟩
          | execute home' text' => exact hcurrent.elim
          | _ => cases haccepted

end Session

/-- Every constant of an interpreter is bound among its globals, but for those of a unit that was
accepted and stopped before the end of their declarations: whatever else happens in a session that
executes units as they are prepared, after each of its steps a constant that is not bound was declared
by a unit one of whose statements was interrupted, be it the declaration or one before it. -/
theorem constants_bound_or_stopped {before steps : List SessionStep} (unit : String)
    (loader : Ref .loader) (hsteps : ∀ step ∈ steps, step.Current) :
    let home := (Session.play before).interpreters.next
    let start := before ++ [.addInterpreter unit loader]
    let w := Session.play (start ++ steps)
    ∀ c ∈ (w.interpreters.get home).constants,
      w.scopes.contains (w.globals home) c = true ∨
        ∃ early file source late, steps = early ++ .run home file source :: late ∧
          let v := Session.play (start ++ early)
          v.Accepts home file source ∧
            (v.compile nestingLimit home file source).2.StopsBefore home
              (v.text nestingLimit home file source).unit c := by
  intro home start w
  have hadd : Session.play start = (Session.play before).addInterpreter unit loader :=
    Session.play_append before _
  have hhome : home.index < (Session.play start).interpreters.size := by
    rw [hadd, World.size_addInterpreter]
    exact Nat.lt_succ_self _
  have hnone : ((Session.play start).interpreters.get home).constants = [] := by
    rw [hadd, World.get_addInterpreter]
  refine (Session.bound_or_stopped hhome (fun c hc => ?_) hsteps).2
  rw [hnone] at hc
  cases hc

/-- A unit that fails in the statement before its constant. -/
theorem constants_bound_or_stopped_call :
    let start := [.addLoader [], .addInterpreter "__main__" ⟨0⟩]
    let steps := [SessionStep.run ⟨0⟩ "<lox>" "nil(); const c = true;"]
    let w := Session.play (start ++ steps)
    (∀ step ∈ steps, step.Current) ∧ "c" ∈ (w.interpreters.get ⟨0⟩).constants ∧
      w.scopes.contains (w.globals ⟨0⟩) "c" = false ∧
      ∃ early file source late, steps = early ++ .run ⟨0⟩ file source :: late ∧
        let v := Session.play (start ++ early)
        (v.compile nestingLimit ⟨0⟩ file source).2.StopsBefore ⟨0⟩
          (v.text nestingLimit ⟨0⟩ file source).unit "c" := by
  intro start steps w
  have hsteps : ∀ step ∈ steps, step.Current := List.forall_mem_singleton.mpr trivial
  have hconstant : "c" ∈ (w.interpreters.get ⟨0⟩).constants := by decide +kernel
  have hunbound : w.scopes.contains (w.globals ⟨0⟩) "c" = false := by decide +kernel
  have hstops := (@constants_bound_or_stopped [.addLoader []] steps "__main__" ⟨0⟩ hsteps "c"
    hconstant).resolve_left (Bool.eq_false_iff.mp hunbound)
  obtain ⟨early, file, source, late, he, -, hstops⟩ := hstops
  exact ⟨hsteps, hconstant, hunbound, early, file, source, late, he, hstops⟩

end Treewalk
