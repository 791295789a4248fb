import Treewalk.Proofs.Loading.Sessions
import Treewalk.Proofs.Twins.Rejection

/-!
# The course of evaluation

Whatever evaluation does and however it ends: interpreters and modules that were there are as they
were, every new module was made by a load, files and surroundings stay, and to what was printed only
more is added.
-/
namespace Treewalk

/-- Objects may have been added, and none was changed. -/
structure Arena.Extends {kind : RefKind} {α : Type} [Inhabited α] (a a' : Arena kind α) : Prop where
  size : a.size ≤ a'.size
  get : ∀ r : Ref kind, r.index < a.size → a'.get r = a.get r

namespace Arena.Extends
variable {kind : RefKind} {α : Type} [Inhabited α] {a b c : Arena kind α}

theorem refl (a : Arena kind α) : a.Extends a := ⟨Nat.le_refl _, fun _ _ => rfl⟩

theorem trans (h : a.Extends b) (h' : b.Extends c) : a.Extends c :=
  ⟨Nat.le_trans h.size h'.size,
    fun r hr => (h'.get r (Nat.lt_of_lt_of_le hr h.size)).trans (h.get r hr)⟩

theorem add (a : Arena kind α) (x : α) : a.Extends (a.add x) :=
  ⟨(Arena.size_add a x).symm ▸ Nat.le_succ _, fun _ hr => Arena.get_add_of_lt a x hr⟩

end Arena.Extends

/-- The same but for one interpreter, the objects, the caches and the error output. -/
structure World.SameAround (home : Ref .interpreter) (w w' : World) : Prop where
  size : w'.interpreters.size = w.interpreters.size
  others : ∀ r, r ≠ home → w'.interpreters.get r = w.interpreters.get r
  modules : w'.modules = w.modules
  files : w'.files = w.files
  workingDirectory : w'.workingDirectory = w.workingDirectory
  now : w'.now = w.now
  out : w'.console.out = w.console.out

namespace World.SameAround
variable {home : Ref .interpreter}

theorem refl (w : World) : w.SameAround home w := ⟨rfl, fun _ _ => rfl, rfl, rfl, rfl, rfl, rfl⟩

theorem updateInterpreter (w : World) (f : Interpreter → Interpreter) :
    w.SameAround home (w.updateInterpreter home f) :=
  ⟨Arena.size_set .., fun _ hr => Arena.get_set_of_ne _ _ (Ne.symm hr), rfl, rfl, rfl, rfl, rfl⟩

theorem updateLoader (w : World) (loader : Ref .loader) (f : Loader → Loader) :
    w.SameAround home (w.updateLoader loader f) :=
  ⟨rfl, fun _ _ => rfl, rfl, rfl, rfl, rfl, rfl⟩

theorem log (w : World) (l : LogLine) : w.SameAround home (w.log l) :=
  ⟨rfl, fun _ _ => rfl, rfl, rfl, rfl, rfl, w.console.out_log l⟩

theorem reportRuntime (w : World) (e : RuntimeError) :
    w.SameAround home (w.reportRuntime home e) :=
  ⟨Arena.size_set .., fun _ hr => Arena.get_set_of_ne _ _ (Ne.symm hr), rfl, rfl, rfl, rfl, rfl⟩

theorem compile (w : World) (levels : Nat) (file source : String) :
    w.SameAround home (w.compile levels home file source).2 := by
  have h := World.SameBut.compile w levels home file source
  refine ⟨h.size, h.others, ?_, ?_, ?_, ?_, ?_⟩ <;> rw [h.rest]

end World.SameAround

theorem World.out_addInterpreter (w : World) (unit : String) (loader : Ref .loader) :
    (w.addInterpreter unit loader).console.out = w.console.out := by
  unfold addInterpreter
  by_cases h : w.interpreters.size = 0
  · simp only [h, if_true]
    exact w.console.out_log _
  · simp only [h, if_false]

theorem World.out_enroll (w : World) (unit : String) (loader : Ref .loader) (place : RealPath) :
    (w.enroll unit loader place).console.out = w.console.out :=
  (out_addInterpreter _ unit loader).trans (w.console.out_log _)

/-- The state in which a computation ends, whichever way it ends. -/
def Watched.final {ε σ ι α : Type} : EStateM.Result ε (Watched σ ι) α → Watched σ ι
  | .ok _ s | .error _ s => s

theorem Outcome.ofResult_snd {σ ι : Type} (u : CompiledUnit)
    (r : EStateM.Result Interrupt (Watched σ ι) Eval.Completion) :
    (Outcome.ofResult u r).2 = Watched.final r := by
  cases r with
  | ok completion s => rfl
  | error i s => cases i <;> rfl

/-- A load that started made its module, from a file that was there. -/
def Load.Made (w : World) (notes : List LoadEvent) (m : Ref .module) : Prop :=
  ∃ loads l v, .started loads l v ∈ notes ∧ l.module = m ∧ (w.modules.get m).path = l.place.text

/-- What evaluation leaves behind. -/
structure Follows (s s' : Watched World LoadEvent) : Prop where
  /-- More was noted, but nothing begun from outside. -/
  more : ∃ more, s'.notes = more ++ s.notes ∧ .run ∉ more
  interpreters : s.state.interpreters.Extends s'.state.interpreters
  modules : s.state.modules.Extends s'.state.modules
  made : ∀ m : Ref .module, s.state.modules.size ≤ m.index → m.index < s'.state.modules.size →
    Load.Made s'.state s'.notes m
  started : ∀ loads l w, .started loads l w ∈ s'.notes → .started loads l w ∈ s.notes ∨
    w.files = s.state.files
  files : s'.state.files = s.state.files
  workingDirectory : s'.state.workingDirectory = s.state.workingDirectory
  now : s'.state.now = s.state.now
  out : ∃ more, s'.state.console.out = s.state.console.out ++ more

namespace Follows
variable {s t u : Watched World LoadEvent} {w : World} {home : Ref .interpreter}

theorem made_of_size (h : t.state.modules.size = s.state.modules.size) (m : Ref .module)
    (hm : s.state.modules.size ≤ m.index) (hm' : m.index < t.state.modules.size) :
    Load.Made t.state t.notes m := (Nat.not_lt.mpr hm (h ▸ hm')).elim

theorem notes (h : Follows s t) : s.notes ⊆ t.notes := by
  obtain ⟨more, hmore, -⟩ := h.more
  rw [hmore]
  exact List.subset_append_right ..

theorem refl (s : Watched World LoadEvent) : Follows s s where
  more := ⟨[], rfl, nofun⟩
  interpreters := .refl _
  modules := .refl _
  made := made_of_size rfl
  started := fun _ _ _ => .inl
  files := rfl
  workingDirectory := rfl
  now := rfl
  out := ⟨"", String.append_empty.symm⟩

theorem trans (h : Follows s t) (h' : Follows t u) : Follows s u where
  more := by
    obtain ⟨more, hmore, hrun⟩ := h.more
    obtain ⟨more', hmore', hrun'⟩ := h'.more
    refine ⟨more' ++ more, by rw [hmore', hmore, List.append_assoc], fun hmem => ?_⟩
    exact (List.mem_append.mp hmem).elim hrun' hrun
  interpreters := h.interpreters.trans h'.interpreters
  modules := h.modules.trans h'.modules
  made := by
    intro m hm hm'
    rcases Nat.lt_or_ge m.index t.state.modules.size with hlt | hge
    · obtain ⟨loads, l, v, hst, hl, hpath⟩ := h.made m hm hlt
      exact ⟨loads, l, v, h'.notes hst, hl, by rw [h'.modules.get m hlt, hpath]⟩
    · exact h'.made m hge hm'
  started := by
    intro loads l v hst
    rcases h'.started loads l v hst with hst | hfiles
    · exact h.started loads l v hst
    · exact .inr (hfiles.trans h.files)
  files := h'.files.trans h.files
  workingDirectory := h'.workingDirectory.trans h.workingDirectory
  now := h'.now.trans h.now
  out := by
    obtain ⟨more, hout⟩ := h.out
    obtain ⟨more', hout'⟩ := h'.out
    exact ⟨more ++ more', by rw [hout', hout, String.append_assoc]⟩

/-- A step that touches nothing but one interpreter newer than all there were. -/
theorem around (h : Follows s t) (hw : t.state.SameAround home w)
    (hhome : s.state.interpreters.size ≤ home.index) : Follows s ⟨w, t.notes⟩ where
  more := h.more
  interpreters := by
    refine ⟨hw.size.symm ▸ h.interpreters.size, fun r hr => ?_⟩
    have hne : r ≠ home := fun he => Nat.not_lt.mpr hhome (he ▸ hr)
    exact (hw.others r hne).trans (h.interpreters.get r hr)
  modules := hw.modules.symm ▸ h.modules
  made := by
    intro m hm hm'
    obtain ⟨loads, l, v, hst, hl, hpath⟩ := h.made m hm (hw.modules ▸ hm')
    exact ⟨loads, l, v, hst, hl, by rw [hw.modules, hpath]⟩
  started := h.started
  files := hw.files.trans h.files
  workingDirectory := hw.workingDirectory.trans h.workingDirectory
  now := hw.now.trans h.now
  out := by
    obtain ⟨more, hout⟩ := h.out
    exact ⟨more, hw.out.trans hout⟩

/-- Scopes and objects do not matter. -/
theorem inside (hw : s.state.SameOutside w) : Follows s ⟨w, s.notes⟩ where
  more := ⟨[], rfl, nofun⟩
  interpreters := hw.interpreters ▸ .refl _
  modules := hw.modules ▸ .refl _
  made := made_of_size (congrArg Arena.size hw.modules)
  started := fun _ _ _ => .inl
  files := hw.files
  workingDirectory := hw.workingDirectory
  now := hw.now
  out := ⟨"", by rw [hw.console, String.append_empty]⟩

/-- More was written. -/
theorem written {console : Console} {more : String} (h : console.out = s.state.console.out ++ more) :
    Follows s ⟨{ s.state with console := console }, s.notes⟩ where
  more := ⟨[], rfl, nofun⟩
  interpreters := .refl _
  modules := .refl _
  made := made_of_size rfl
  started := fun _ _ _ => .inl
  files := rfl
  workingDirectory := rfl
  now := rfl
  out := ⟨more, h⟩

/-- Something was noted, but no start of a load. -/
theorem noted {e : LoadEvent} (h : ∀ loads l v, e ≠ .started loads l v) (hrun : e ≠ .run) :
    Follows s ⟨s.state, e :: s.notes⟩ where
  more := ⟨[e], rfl, fun hmem => hrun (List.mem_singleton.mp hmem).symm⟩
  interpreters := .refl _
  modules := .refl _
  made := made_of_size rfl
  started := fun loads l v hst => .inl ((List.mem_cons.mp hst).resolve_left (h loads l v ·.symm))
  files := rfl
  workingDirectory := rfl
  now := rfl
  out := ⟨"", String.append_empty.symm⟩

/-- A load starts: its file gets a module, which is registered. -/
theorem enrolled (s : Watched World LoadEvent) (loads : List Load) (loader : Ref .loader)
    (name : String) (place : RealPath) :
    Follows s ⟨s.state.enroll name loader place,
      .started loads ⟨loader, place, s.state.modules.next⟩ s.state :: s.notes⟩ := by
  have hout := s.state.out_enroll name loader place
  obtain ⟨console, henroll⟩ := s.state.enroll_eq name loader place
  rw [henroll] at hout ⊢
  constructor
  case more => exact ⟨[_], rfl, nofun⟩
  case interpreters => exact .add ..
  case modules => exact .add ..
  case made =>
    intro m hm hm'
    have hnew : m = s.state.modules.next := by
      refine congrArg Ref.mk (Nat.le_antisymm (Nat.lt_succ_iff.mp ?_) hm)
      exact Nat.lt_of_lt_of_eq hm' (Arena.size_add ..)
    refine ⟨loads, _, _, List.mem_cons_self .., hnew.symm, ?_⟩
    rw [hnew, Arena.get_add_next]
  case started =>
    intro loads' l v hst
    rcases List.mem_cons.mp hst with he | hst
    · cases he
      exact .inr rfl
    · exact .inl hst
  case files => rfl
  case workingDirectory => rfl
  case now => rfl
  case out => exact ⟨"", hout.trans String.append_empty.symm⟩

end Follows

/-! ### Evaluation -/

namespace Loading
open Watched
variable {α β : Type}

/-- Whatever happens in a computation follows from the state before. -/
def Onward (p : Loading α) : Prop := ∀ s, Follows s (final (p s))

namespace Onward
variable {p : Loading α}

theorem pure (a : α) : Onward (Pure.pure a) := Follows.refl

theorem throw (i : Interrupt) : Onward (MonadExcept.throw i : Loading α) := Follows.refl

theorem bind {p : Loading β} {f : β → Loading α} (hp : Onward p) (hf : ∀ b, Onward (f b)) :
    Onward (p >>= f) := by
  intro s
  have hps := hp s
  change Follows s (final (EStateM.bind p f s))
  unfold EStateM.bind
  cases hr : p s with
  | ok b t =>
      rw [hr] at hps
      exact hps.trans (hf b t)
  | error i t =>
      rw [hr] at hps
      exact hps

theorem map {p : Loading β} (hp : Onward p) (f : β → α) : Onward (f <$> p) :=
  hp.bind fun b => pure (f b)

theorem quietly {q : Eval α} (h : Eval.Inside q) : Onward (Watched.quietly q) := by
  intro s
  have hq := h s.state
  unfold Watched.quietly
  cases hr : q s.state with
  | ok a w =>
      rw [hr] at hq
      exact .inside hq
  | error i w =>
      rw [hr] at hq
      exact .inside hq

theorem noting {e : LoadEvent} (h : ∀ loads l v, e ≠ .started loads l v) (hrun : e ≠ .run) :
    Onward (note e) := fun _ => .noted h hrun

theorem looking {f : World → Loading α} (h : ∀ w, Onward (f w)) : Onward (look >>= f) :=
  fun s => h s.state s

theorem reaching {loads : List Load} (h : Onward p) : Onward (reach loads >>= fun _ => p) :=
  .bind (.looking fun _ => .noting nofun nofun) fun _ => h

theorem logging (l : LogLine) :
    Onward (Watched.quietly (modify fun w : World => w.log l)) := fun s =>
  .written ((s.state.console.out_log l).trans String.append_empty.symm)

theorem mapM {f : β → Loading α} (h : ∀ b, Onward (f b)) (bs : List β) : Onward (bs.mapM f) := by
  induction bs with
  | nil => exact .pure []
  | cons b bs ih =>
      rw [List.mapM_cons]
      exact .bind (h b) fun _ => .bind ih fun _ => .pure _

theorem forM {f : β → Loading Unit} (h : ∀ b, Onward (f b)) (bs : List β) :
    Onward (bs.forM f) := by
  induction bs with
  | nil => exact .pure ()
  | cons b bs ih => exact .bind (h b) fun _ => ih

/-! What takes interrupts ends in the state in which its body ends. -/

theorem round {p : Loading Unit} (hp : Onward p) : Onward (round p) := by
  intro s
  have hps := hp s
  unfold Loading.round
  cases hr : p s with
  | ok a t =>
      rw [hr] at hps
      exact hps
  | error i t =>
      rw [hr] at hps
      cases i with
      | signal c => cases c <;> exact hps
      | _ => exact hps

theorem loop {condition : Loading Bool} {body increment : Loading Unit} (hc : Onward condition)
    (hb : Onward body) (hi : Onward increment) (patience : Nat) :
    Onward (loop condition body increment patience) := by
  induction patience with
  | zero => exact .throw _
  | succ patience ih =>
      refine .bind hc fun go => ?_
      cases go with
      | false => exact .pure ()
      | true =>
          refine .bind hb.round fun go => ?_
          cases go with
          | false => exact .pure ()
          | true => exact .bind hi fun _ => ih

theorem returned {p : Loading Unit} (hp : Onward p) : Onward (returned p) := by
  intro s
  have hps := hp s
  unfold Loading.returned
  cases hr : p s with
  | ok a t =>
      rw [hr] at hps
      exact hps
  | error i t =>
      rw [hr] at hps
      cases i with
      | signal c => cases c <;> exact hps
      | _ => exact hps

theorem atCall {paren : Token} (hp : Onward p) : Onward (atCall paren p) := by
  intro s
  have hps := hp s
  unfold Loading.atCall
  cases hr : p s with
  | ok a t =>
      rw [hr] at hps
      exact hps
  | error i t =>
      rw [hr] at hps
      cases i <;> exact hps

section Calls
variable {run : Site → Stmt → Loading Unit} (hrun : ∀ site st, Onward (run site st))
include hrun

theorem callFunction (f : Closure) (arguments : List Value) :
    Onward (callFunction run f arguments) := by
  refine .bind (.quietly (Eval.inside_newScope _)) fun scope =>
    .bind (.forM (fun _ => .quietly (Eval.inside_define _ _ _)) _) fun _ =>
      .bind (.returned (.forM (hrun _) _)) fun v => ?_
  split
  · exact .quietly (Eval.inside_loadAt _ _ _)
  · exact .pure _

theorem callValue (callee : Value) (arguments : List Value) :
    Onward (callValue run callee arguments) := by
  refine .looking fun w => ?_
  cases callee with
  | function r => exact callFunction hrun _ arguments
  | «class» r =>
      refine .bind (.quietly (Eval.inside_newInstance r)) fun i => ?_
      cases w.method? r "init" with
      | some f =>
          exact .bind (.quietly (Eval.inside_bound f i)) fun f =>
            .bind (callFunction hrun f arguments) fun _ => .pure _
      | none => exact .pure _
  | _ => exact .pure _

end Calls
end Onward

/-! ### Units and modules -/

section Units
variable {run : Site → Stmt → Loading Unit} {home : Ref .interpreter} {u : CompiledUnit}
  {s t : Watched World LoadEvent}

/-- When a unit is executed, its interpreter is prepared, what its statements do follows, and a
runtime error is reported; a rejected unit is only logged. -/
theorem final_execute (hrun : ∀ site st, Onward (run site st)) (home : Ref .interpreter)
    (u : CompiledUnit) (s : Watched World LoadEvent) :
    if u.ok then
      ∃ t, Follows ⟨s.state.prepare home u, s.notes⟩ t ∧
        (final (execute run home u s) = t ∨
          ∃ e, final (execute run home u s) = ⟨t.state.reportRuntime home e, t.notes⟩)
    else final (execute run home u s) = ⟨s.state.log (.notExecuted u.file u.errorCount), s.notes⟩ := by
  unfold execute
  split
  · let site : Site := ⟨home, (s.state.prepare home u).globals home⟩
    have hall : Follows ⟨s.state.prepare home u, s.notes⟩
        (final (u.statements.forM (run site) ⟨s.state.prepare home u, s.notes⟩)) :=
      Onward.forM (hrun site) u.statements _
    refine ⟨_, hall, ?_⟩
    change final (finishing home (u.statements.forM (run site)) ⟨s.state.prepare home u, s.notes⟩) =
      _ ∨ ∃ e, final (finishing home (u.statements.forM (run site))
        ⟨s.state.prepare home u, s.notes⟩) = _
    unfold finishing
    cases u.statements.forM (run site) ⟨s.state.prepare home u, s.notes⟩ with
    | ok a t => exact .inl rfl
    | error i t =>
        cases i with
        | error e => exact .inr ⟨e, rfl⟩
        | _ => exact .inl rfl
  · rfl

/-- Before and after its statements only the interpreter and the error output change. -/
theorem execute_around (hrun : ∀ site st, Onward (run site st)) (home : Ref .interpreter)
    (u : CompiledUnit) (s : Watched World LoadEvent) :
    ∃ w t w', s.state.SameAround home w ∧ Follows ⟨w, s.notes⟩ t ∧ t.state.SameAround home w' ∧
      final (execute run home u s) = ⟨w', t.notes⟩ := by
  have hexecute := final_execute hrun home u s
  split at hexecute
  · obtain ⟨t, ht, hend⟩ := hexecute
    have hprepared : s.state.SameAround home (s.state.prepare home u) := .updateInterpreter _ _
    rcases hend with hend | ⟨e, hend⟩
    · exact ⟨_, t, t.state, hprepared, ht, .refl _, hend⟩
    · exact ⟨_, t, _, hprepared, ht, .reportRuntime t.state e, hend⟩
  · exact ⟨s.state, _, _, .refl _, .refl _, .log s.state _, hexecute⟩

/-- Only one interpreter is not as it was. -/
theorem Follows.execute (h : Follows s t) (hrun : ∀ site st, Onward (run site st))
    (hhome : s.state.interpreters.size ≤ home.index) :
    Follows s (final (execute run home u t)) := by
  obtain ⟨w, v, w', hbefore, hv, hafter, hend⟩ := execute_around hrun home u t
  rw [hend]
  exact ((h.around hbefore hhome).trans hv).around hafter hhome

end Units

section Modules
variable {run : List Load → Site → Stmt → Loading Unit} {loads : List Load}

theorem Onward.executing (hrun : ∀ loads site st, Onward (run loads site st)) (l : Load) (site : Site)
    (st : Stmt) : Onward (Loading.executing run loads l site st) :=
  .bind (hrun (l :: loads) site st) fun _ => .noting nofun nofun

theorem Onward.updateLoader (loader : Ref .loader) (f : Loader → Loader) :
    Onward (Watched.quietly (modify fun w : World => w.updateLoader loader f)) := fun s =>
  have haround : s.state.SameAround s.state.interpreters.next _ := .updateLoader s.state loader f
  (Follows.refl s).around haround (Nat.le_refl _)

theorem Onward.conclude (token : Token) (name : String) (l : Load) (u : CompiledUnit)
    (completion : Eval.Completion) : Onward (Loading.conclude token name l u completion) := by
  cases completion with
  | completed => exact .bind (.noting nofun nofun) fun _ => .pure _
  | rejected =>
      exact .bind (.updateLoader _ _) fun _ => .bind (.noting nofun nofun) fun _ => .quietly (.throw _)
  | failed e =>
      exact .bind (.updateLoader _ _) fun _ => .bind (.noting nofun nofun) fun _ => .quietly (.throw _)

theorem Onward.loadModule (hrun : ∀ loads site st, Onward (run loads site st)) (levels : Nat)
    (loader : Ref .loader) (token : Token) (name : String) (place : RealPath) (source : String) :
    Onward (Loading.loadModule run loads levels loader token name place source) := by
  intro s
  let l : Load := ⟨loader, place, s.state.modules.next⟩
  let home := s.state.interpreters.next
  let r := (s.state.enroll name loader place).compile levels home place.text source
  let started : Watched World LoadEvent := ⟨r.2, .started loads l s.state :: s.notes⟩
  have hstarted : Follows s started :=
    (Follows.enrolled s loads loader name place).around (.compile _ levels place.text source)
      (Nat.le_refl _)
  have hexecuted : Follows s (final (execute (Loading.executing run loads l) home r.1 started)) :=
    Follows.execute hstarted (.executing hrun l) (Nat.le_refl _)
  change Follows s (final (EStateM.bind
    (cutting l (execute (Loading.executing run loads l) home r.1))
    (Loading.conclude token name l r.1) started))
  unfold EStateM.bind cutting
  cases hr : execute (Loading.executing run loads l) home r.1 started with
  | ok completion t =>
      rw [hr] at hexecuted
      exact hexecuted.trans (Onward.conclude token name l r.1 completion t)
  | error i t =>
      rw [hr] at hexecuted
      exact hexecuted.trans (.noted nofun nofun)

theorem Onward.importModule (hrun : ∀ loads site st, Onward (run loads site st)) (levels : Nat)
    (home : Ref .interpreter) (token : Token) :
    Onward (Loading.importModule run loads levels home token) := by
  refine .looking fun w => ?_
  dsimp only
  split
  · exact .quietly (.throw _)
  · exact .quietly (.throw _)
  · split
    · exact .bind (.logging _) fun _ => .pure _
    · exact .bind (.quietly (Eval.inside_readModule _ _ _)) fun source =>
        .loadModule hrun levels _ token _ _ source

end Modules

/-! ### Trees -/

/-- Everything that is evaluated follows. -/
structure LevelOnward (patience levels : Nat) : Prop where
  expression : ∀ loads site e, Onward (expression patience levels loads site e)
  call : ∀ loads callee arguments, Onward (call patience levels loads callee arguments)
  statement : ∀ loads site st, Onward (statement patience levels loads site st)

namespace LevelOnward
variable {patience levels : Nat}

theorem expression_succ (ih : LevelOnward patience levels) (loads : List Load) (site : Site)
    (e : Expr) : Onward (Loading.expression patience (levels + 1) loads site e) := by
  unfold Loading.expression
  refine .reaching ?_
  cases e with
  | literal l => exact .pure _
  | grouping inner => exact ih.expression loads site inner
  | name use => exact .quietly (Eval.inside_read site use)
  | this use => exact .quietly (Eval.inside_read site use)
  | assign use value =>
      exact .bind (ih.expression loads site value) fun v =>
        .bind (.quietly (Eval.inside_assign site use v)) fun _ => .pure _
  | unary op token operand =>
      exact .bind (ih.expression loads site operand) fun v =>
        .quietly (Eval.inside_ofOperator token _)
  | binary left op token right =>
      exact .bind (ih.expression loads site left) fun v =>
        .bind (ih.expression loads site right) fun v' => .quietly (Eval.inside_ofOperator token _)
  | logical left op token right =>
      refine .bind (ih.expression loads site left) fun v => ?_
      by_cases h : op.decides v
      · simp only [h, if_true]
        exact .pure _
      · simp only [h]
        exact ih.expression loads site right
  | call callee paren arguments =>
      exact .bind (ih.expression loads site callee) fun f =>
        .bind (.mapM (ih.expression loads site) arguments) fun vs =>
          .bind (.quietly (Eval.inside_checkCall f paren _)) fun _ => .atCall (ih.call loads f vs)
  | get object name =>
      exact .bind (ih.expression loads site object) fun o => .quietly (Eval.inside_property o name)
  | set object name value =>
      exact .bind (ih.expression loads site object) fun o =>
        .bind (.quietly (Eval.inside_checkFields o name)) fun _ =>
          .bind (ih.expression loads site value) fun v =>
            .bind (.quietly (Eval.inside_setProperty o name v)) fun _ => .pure _
  | super use method => exact .quietly (Eval.inside_superMethod site use method)
  | lambda function => exact .quietly (Eval.inside_newFunction _)

/-- A line is printed. -/
theorem print (v : Value) :
    Onward (quietly (modify fun w : World =>
      { w with console := w.console.print (w.display v) })) :=
  fun _ => .written (String.append_assoc ..)

theorem statement_succ (ih : LevelOnward patience levels) (loads : List Load) (site : Site)
    (st : Stmt) : Onward (Loading.statement patience (levels + 1) loads site st) := by
  unfold Loading.statement
  refine .reaching ?_
  cases st with
  | expression e => exact .bind (ih.expression loads site e) fun _ => .pure _
  | print e => exact .bind (ih.expression loads site e) fun v => print v
  | var mutability name initial =>
      cases initial with
      | none => exact .bind (.pure _) fun v => .quietly (Eval.inside_define _ _ v)
      | some e =>
          exact .bind (ih.expression loads site e) fun v => .quietly (Eval.inside_define _ _ v)
  | block body =>
      exact .bind (.quietly (Eval.inside_newScope _)) fun scope =>
        .forM (fun st => ih.statement loads _ st) body
  | «if» condition thenBranch elseBranch =>
      refine .bind (ih.expression loads site condition) fun v => ?_
      by_cases h : v.truthy
      · simp only [h, if_true]
        exact ih.statement loads site thenBranch
      · simp only [h]
        cases elseBranch with
        | none => exact .pure _
        | some s => exact ih.statement loads site s
  | «while» condition body increment =>
      refine .loop (.map (ih.expression loads site condition) _) (ih.statement loads site body) ?_
        patience
      cases increment with
      | none => exact .pure _
      | some e => exact .map (ih.expression loads site e) _
  | «break» keyword => exact .throw _
  | «continue» keyword => exact .throw _
  | «return» keyword value =>
      cases value with
      | none => exact .bind (.pure _) fun _ => .throw _
      | some e => exact .bind (ih.expression loads site e) fun _ => .throw _
  | function f =>
      exact .quietly (.bind (Eval.inside_newFunction _) fun v => Eval.inside_define _ _ v)
  | «class» name parent methods =>
      exact .quietly (.bind (Eval.inside_parent site parent) fun parent =>
        Eval.inside_declareClass site name parent methods)
  | importModule keyword name as =>
      exact .bind (.importModule ih.statement _ site.home name) fun m =>
        .quietly (Eval.inside_define _ _ _)

end LevelOnward

theorem levelOnward (patience levels : Nat) : LevelOnward patience levels := by
  induction levels with
  | zero =>
      exact
        { expression := fun _ _ _ => .throw _
          call := fun _ _ _ => .throw _
          statement := fun _ _ _ => .throw _ }
  | succ levels ih =>
      exact
        { expression := ih.expression_succ
          call := fun loads => .callValue (ih.statement loads)
          statement := ih.statement_succ }

theorem executeUnit_around (home : Ref .interpreter) (u : CompiledUnit)
    (s : Watched World LoadEvent) :
    ∃ w t w', s.state.SameAround home w ∧ Follows ⟨w, .run :: s.notes⟩ t ∧
      t.state.SameAround home w' ∧ (executeUnit home u s).2 = ⟨w', t.notes⟩ := by
  unfold executeUnit
  rw [Outcome.ofResult_snd]
  exact execute_around ((levelOnward _ _).statement []) home u ⟨s.state, .run :: s.notes⟩

end Loading

/-- What follows the preparation of an interpreter, with a runtime error reported in the end or not,
is what the execution of a unit leaves behind. -/
theorem World.execute_course (w : World) (home : Ref .interpreter) (u : CompiledUnit) :
    if u.ok then
      ∃ t, Follows ⟨w.prepare home u, [.run]⟩ t ∧
        ((w.execute home u).2 = t.state ∨ ∃ e, (w.execute home u).2 = t.state.reportRuntime home e)
    else (w.execute home u).2 = w.log (.notExecuted u.file u.errorCount) := by
  have hall := Loading.levelOnward grantedRounds (nestingLimit / 2)
  have hcourse := Loading.final_execute (hall.statement []) home u ⟨w, [.run]⟩
  rw [← congrArg Prod.snd (Loading.executeUnit_erases home u ⟨w, []⟩)]
  unfold Loading.executeUnit
  rw [Outcome.ofResult_snd]
  split at hcourse
  · rename_i hok
    obtain ⟨t, ht, hend⟩ := hcourse
    rw [if_pos hok]
    refine ⟨t, ht, hend.imp (congrArg Watched.state) ?_⟩
    rintro ⟨e, he⟩
    exact ⟨e, congrArg Watched.state he⟩
  · rename_i hok
    rw [if_neg hok]
    exact congrArg Watched.state hcourse

end Treewalk
