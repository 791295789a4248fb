import Treewalk.Proofs.Run.Steps

/-!
# Calm steps

Most steps of evaluation touch neither scopes nor functions nor classes: operators, checks, output,
reports, instances, files and the caches of loaders.
-/
namespace Treewalk

namespace World

theorem alike_updateInterpreter (w : World) (home : Ref .interpreter)
    {f : Interpreter → Interpreter}
    (hf : ∀ i, (f i).globals = i.globals ∧ (f i).constants = i.constants ∧ (f i).file = i.file) :
    w.Alike (w.updateInterpreter home f) := by
  have hget : ∀ home' : Ref .interpreter,
      ((w.updateInterpreter home f).interpreters.get home').globals =
        (w.interpreters.get home').globals ∧
      ((w.updateInterpreter home f).interpreters.get home').constants =
        (w.interpreters.get home').constants ∧
      ((w.updateInterpreter home f).interpreters.get home').file =
        (w.interpreters.get home').file := by
    intro home'
    unfold updateInterpreter
    rcases Nat.lt_or_ge home.index w.interpreters.size with hlt | hge
    · by_cases he : home = home'
      · subst he
        simp only [Arena.get_set_self _ _ hlt]
        exact hf _
      · simp only [Arena.get_set_of_ne _ _ he, and_self]
    · simp only [Arena.set_of_le _ _ hge, and_self]
  exact .intro rfl rfl rfl (Arena.size_set ..) (fun home' => (hget home').1) (fun _ => rfl)
    (fun home' => (hget home').2.1) fun home' => (hget home').2.2

theorem alike_publish (w : World) (home : Ref .interpreter) (notice : Notice) :
    w.Alike (w.publish home notice) := by
  cases notice with
  | log l => exact w.alike_log l
  | error d =>
      have hwarned : ∀ text, w.Alike { w with console := w.console.warn text } := fun _ =>
        .intro rfl rfl rfl rfl (fun _ => rfl) (fun _ => rfl) (fun _ => rfl) fun _ => rfl
      exact (hwarned _).trans (alike_updateInterpreter _ home
        (f := fun i => { i with reporter := i.reporter.noteStatic }) fun _ => ⟨rfl, rfl, rfl⟩)

theorem alike_reportRuntime (w : World) (home : Ref .interpreter) (e : RuntimeError) :
    w.Alike (w.reportRuntime home e) := by
  have hwarned : ∀ text, w.Alike { w with console := w.console.warn text } := fun _ =>
    .intro rfl rfl rfl rfl (fun _ => rfl) (fun _ => rfl) (fun _ => rfl) fun _ => rfl
  exact (hwarned _).trans (alike_updateInterpreter _ home
    (f := fun i => { i with reporter := i.reporter.noteRuntime }) fun _ => ⟨rfl, rfl, rfl⟩)

theorem alike_compile (w : World) (levels : Nat) (home : Ref .interpreter) (file source : String) :
    w.Alike (w.compile levels home file source).2 := by
  exact List.foldlRecOn _ _ (motive := w.Alike) (.refl w)
    fun v h notice _ => h.trans (v.alike_publish home notice)

theorem alike_updateLoader (w : World) (loader : Ref .loader) (f : Loader → Loader) :
    w.Alike (w.updateLoader loader f) := .intro rfl rfl rfl rfl (fun _ => rfl) (fun _ => rfl) (fun _ => rfl) fun _ => rfl

/-- What is prepared for an interpreter is prepared from its text. -/
theorem compile_fst (w : World) (levels : Nat) (home : Ref .interpreter) (file source : String) :
    (w.compile levels home file source).1 = (w.text levels home file source).unit := rfl

end World

namespace Eval

theorem calm_fail {α : Type} (token : Token) (cause : RuntimeCause) :
    (fail token cause : Eval α).Calm := fun w => ⟨.refl w, trivial⟩

theorem calm_modify {f : World → World} (hf : ∀ w : World, w.Alike (f w)) :
    (modify f : Eval Unit).Calm := fun w => hf w

theorem calm_ofOperator {token : Token} {r : Except OperatorFailure Value}
    (h : ∀ c, r = .error (.crash c) → (Interrupt.crash c).Fine) : (ofOperator token r).Calm := by
  intro w
  cases r with
  | ok v => exact .refl w
  | error e =>
      cases e with
      | error cause => exact ⟨.refl w, trivial⟩
      | crash c => exact ⟨.refl w, h c rfl⟩

theorem calm_unary (op : UnaryOp) (token : Token) (v : Value) :
    (ofOperator token (op.apply v)).Calm := by
  refine calm_ofOperator fun c hc => ?_
  unfold UnaryOp.apply at hc
  split at hc <;> cases hc

theorem calm_binary (op : BinaryOp) (token : Token) (v v' : Value) :
    (ofOperator token (op.apply v v')).Calm := by
  have hnumbers : ∀ x y c, op.onNumbers x y = .error (.crash c) → (Interrupt.crash c).Fine := by
    intro x y c hc
    unfold BinaryOp.onNumbers at hc
    split at hc
    case h_4 => split at hc <;> cases hc
    case h_5 =>
      split at hc
      · cases hc
      · split at hc <;> cases hc
        trivial
    all_goals cases hc
  refine calm_ofOperator fun c hc => ?_
  unfold BinaryOp.apply at hc
  split at hc
  case h_4 => exact hnumbers _ _ c hc
  all_goals cases hc

theorem calm_checkFields (o : Value) (name : Token) : (checkFields o name).Calm := by
  intro w
  cases o with
  | «instance» r => exact .refl w
  | module r => exact .refl w
  | _ => exact ⟨.refl w, trivial⟩

theorem calm_newInstance (r : Ref .class) : (newInstance r).Calm :=
  fun _ => .intro rfl rfl rfl rfl (fun _ => rfl) (fun _ => rfl) (fun _ => rfl) fun _ => rfl

theorem calm_readModule (token : Token) (name : String) (e : FileEntry) :
    (readModule token name e).Calm := by
  intro w
  cases e with
  | file bytes =>
      unfold readModule
      cases h : Text.decode? bytes with
      | some s =>
          simp only [h]
          exact .refl w
      | none =>
          simp only [h]
          exact ⟨.refl w, trivial⟩
  | unreadable reason => exact ⟨.refl w, trivial⟩
  | directory => exact ⟨.refl w, trivial⟩

theorem calm_checkCall (callee : Value) (paren : Token) (found : Nat) :
    (checkCall callee paren found).Calm := by
  intro w
  unfold checkCall
  rw [Watched.get_bind]
  cases w.arity? callee with
  | none => exact ⟨.refl w, trivial⟩
  | some expected =>
      by_cases h : found = expected
      · simp only [h, ne_eq, not_true_eq_false, if_false]
        exact .refl w
      · simp only [h, ne_eq, not_false_eq_true, if_true]
        exact ⟨.refl w, trivial⟩

/-- A call that passes the check has as many arguments as are taken. -/
theorem checkCall_ok {callee : Value} {paren : Token} {found : Nat} {w w' : World} {u : Unit}
    (h : checkCall callee paren found w = .ok u w') :
    w' = w ∧ w.arity? callee = some found := by
  unfold checkCall at h
  obtain ⟨v, v', hget, h⟩ := Watched.bind_ok h
  cases hget
  cases ha : w.arity? callee with
  | none =>
      simp only [ha] at h
      cases h
  | some expected =>
      simp only [ha] at h
      by_cases he : found ≠ expected
      · simp only [he, ne_eq, not_false_eq_true, if_true] at h
        cases h
      · simp only [he, if_false] at h
        cases h
        exact ⟨rfl, congrArg some (not_not.mp he).symm⟩

end Eval
end Treewalk
