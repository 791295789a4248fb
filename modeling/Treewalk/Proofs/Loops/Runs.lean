import Treewalk.Proofs.Loops.Steps
import Treewalk.Proofs.Control.Imports

/-!
# Runs of loops written out

Code with loops written out does the same as the code without, in worlds of which the second one has
scopes more, whatever they call and import.
-/
namespace Treewalk

/-! ### Rounds -/

/-- A round of a loop with the increment after it. The answer says whether the loop goes on. -/
def Eval.turn (body increment : Eval Unit) : Eval Bool := do
  if ← round body then
    increment
    return true
  else return false

/-- The increment of a loop. -/
def Eval.advance (patience levels : Nat) (site : Site) : Option Expr → Eval Unit
  | some e => do
      let _ ← expression patience levels site e
      return ()
  | none => return ()

/-- An initial or returned value, nil if there is none. -/
def Eval.optional (patience levels : Nat) (site : Site) : Option Expr → Eval Value
  | some e => expression patience levels site e
  | none => return .nil

namespace Eval
variable {condition : Eval Bool} {body increment : Eval Unit}

theorem statement_while (patience levels : Nat) (site : Site) (c : Expr) (s : Stmt)
    (e : Option Expr) : statement patience (levels + 1) site (.while c s e) =
      loop (Value.truthy <$> expression patience levels site c) (statement patience levels site s)
        (advance patience levels site e) patience := by
  cases e <;> rfl

theorem loop_succ (patience : Nat) : loop condition body increment (patience + 1) = (do
    if ← condition then
      if ← turn body increment then loop condition body increment patience) := by
  unfold turn
  simp only [loop, bind_assoc]
  congr 1
  funext go
  cases go with
  | false => rfl
  | true =>
      simp only [if_true]
      congr 1
      funext goOn
      cases goOn with
      | false => rfl
      | true => simp only [if_true, bind_assoc, pure_bind]

/-- A round of a loop without an increment. -/
theorem turn_pure : turn body (pure ()) = round body := by
  unfold turn
  conv_rhs => rw [← bind_pure (round body)]
  congr 1
  funext goOn
  cases goOn <;> rfl

/-- The scope of a block that is the body of a loop is made before the round. -/
theorem round_block (patience levels : Nat) (site : Site) (body : List Stmt) :
    round (statement patience (levels + 1) site (.block body)) = newScope site.scope >>= fun r =>
      round (body.forM (statement patience levels { site with scope := r })) := rfl

theorem statement_var (patience levels : Nat) (site : Site) (m : Mutability) (name : Token)
    (e : Option Expr) : statement patience (levels + 1) site (.var m name e) = (do
      let v ← optional patience levels site e
      define site.scope name.lexeme v) := by
  cases e <;> rfl

theorem statement_return (patience levels : Nat) (site : Site) (keyword : Token)
    (e : Option Expr) : statement patience (levels + 1) site (.return keyword e) = (do
      let v ← optional patience levels site e
      throw (.signal (.return v))) := by
  cases e <;> rfl

/-- The import that loads a module ends as its unit does. -/
theorem loadModule_ending (levels : Nat) (run : Site → Stmt → Eval Unit) (loader : Ref .loader)
    (token : Token) (name : String) (place : RealPath) (source : String) (w : World) :
    loadModule levels run loader token name place source w =
      Ending.loaded loader token name place w.modules.next
        (execute run w.interpreters.next
          ((w.enroll name loader place).compile levels w.interpreters.next place.text source).1
          ((w.enroll name loader place).compile levels w.interpreters.next place.text source).2) := by
  rw [loadModule_run]
  dsimp only
  generalize execute run _ _ _ = r
  cases r with
  | ok completion v => cases completion <;> rfl
  | error i v => rfl

end Eval

/-- Units that differ in loops written out. -/
structure CompiledUnit.WrittenOut (u u' : CompiledUnit) : Prop where
  file : u'.file = u.file
  constants : u'.constants = u.constants
  errorCount : u'.errorCount = u.errorCount
  statements : u.ok = true → StmtsWrittenOut .none id u.statements u'.statements

/-- Accepted statements are written out as they are. -/
theorem UnitText.writtenOut (t : UnitText) : t.unit.WrittenOut t.unit := by
  refine ⟨rfl, rfl, rfl, fun h => WrittenOut.statements fun s hs => ?_⟩
  have hlegal := t.legal h s hs
  exact hlegal.same id .none (t.named h hs) (.inl rfl) (.inl rfl) (hlegal.jumping .none)

namespace Pairing
variable {side : Side} {allowed : Signal → Prop} {Γ : Pairing} {α β : Type}

/-- No signal leaves an expression. -/
abbrev Never : Signal → Prop := fun _ => False

namespace Agree
variable {R : Pairing → α → β → Prop} {p : Eval α} {q : Eval β}

theorem never (h : Agree side Never Γ R p q) : Agree side allowed Γ R p q :=
  h.weaken fun _ hc => hc.elim

/-- The limit cuts one of the runs short at once. -/
theorem overflow (h : match side with
    | .first => p = MonadExcept.throw .overflow
    | .second => q = MonadExcept.throw .overflow) : Agree side allowed Γ R p q := by
  intro Δ _ w w' _
  apply Outcomes.cut
  cases side with
  | first =>
      rw [h]
      exact CutShort.overflow w
  | second =>
      rw [h]
      exact CutShort.overflow w'

/-- The second run has a level at least, or it is cut short. -/
theorem level {m : Nat} {q : Nat → Eval β} (hzero : q 0 = MonadExcept.throw .overflow)
    (hfirst : side = .first → 0 < m) (h : ∀ k, m = k + 1 → Agree side allowed Γ R p (q m)) :
    Agree side allowed Γ R p (q m) := by
  cases m with
  | zero =>
      cases side with
      | first => exact (Nat.lt_irrefl 0 (hfirst rfl)).elim
      | second => exact .overflow hzero
  | succ k => exact h k rfl

end Agree

/-! ### Taking interrupts -/

namespace Outcomes

theorem round {r r' : Ending Unit} (h : Outcomes side allowed Γ Same r r') :
    Outcomes side Jumps.none.Allows Γ Same r.round r'.round := by
  cases h with
  | ok hΔ _ hw => exact .ok hΔ rfl hw
  | error hΔ hi hw =>
      cases hi with
      | @signal c =>
          cases c with
          | «return» v => exact .error hΔ (.signal trivial) hw
          | «break» | «continue» => exact .ok hΔ rfl hw
      | fault h =>
          have hsame := h
          cases h <;> exact .error hΔ (.fault hsame) hw
  | cut hc => exact .cut (hc.imp .round .round)

theorem returned {r r' : Ending Unit} (h : Outcomes side Jumps.none.Allows Γ Same r r') :
    Outcomes side Never Γ Same r.returned r'.returned := by
  cases h with
  | ok hΔ _ hw => exact .ok hΔ rfl hw
  | error hΔ hi hw =>
      cases hi with
      | @signal c hc =>
          cases c with
          | «return» v => exact .ok hΔ rfl hw
          | «break» | «continue» => exact hc.elim nofun nofun
      | fault h =>
          have hsame := h
          cases h <;> exact .error hΔ (.fault hsame) hw
  | cut hc => exact .cut (hc.imp .returned .returned)

theorem atCall {R : Pairing → α → β → Prop} {r : Ending α} {r' : Ending β} (paren : Token)
    (h : Outcomes side Never Γ R r r') :
    Outcomes side Never Γ R (r.atCall paren) (r'.atCall paren) := by
  cases h with
  | ok hΔ hab hw => exact .ok hΔ hab hw
  | error hΔ hi hw =>
      cases hi with
      | signal hc => exact hc.elim
      | fault h =>
          have hsame := h
          cases h <;> exact .error hΔ (.fault hsame) hw
  | cut hc => exact .cut (hc.imp (fun hr => hr.atCall paren) fun hr => hr.atCall paren)

/-- A round with the increment after it, and one with the increment in it. -/
theorem spelled {r r' : Ending Unit} {increment increment' : Eval Unit}
    (h : Outcomes side Jumps.break.Allows Γ Same r r')
    (hi : Agree side Never Γ Same increment increment') :
    Outcomes side Jumps.none.Allows Γ Same
      (r.round.andThen fun go => if go then do increment; return true else return false)
      (r'.andThen fun _ => increment').round := by
  cases h with
  | @ok Δ _ _ w w' hΔ _ hw =>
      have hst := hi Δ hΔ w w' hw
      change Outcomes side Jumps.none.Allows Γ Same ((increment >>= fun _ => pure true) w)
        (Ending.round (increment' w'))
      rw [Eval.bind_ending]
      refine (?_ : Outcomes side Jumps.none.Allows Δ Same _ _).le hΔ
      generalize increment w = r at hst
      generalize increment' w' = r' at hst
      cases hst with
      | ok hΘ _ ht => exact .ok hΘ rfl ht
      | error hΘ hi ht =>
          cases hi with
          | signal hc => exact hc.elim
          | fault h =>
              have hsame := h
              cases h <;> exact .error hΘ (.fault hsame) ht
      | cut hc => exact .cut (hc.imp (fun hr => hr.andThen _) .round)
  | error hΔ hi hw =>
      cases hi with
      | @signal c hc =>
          cases c with
          | «return» v => exact .error hΔ (.signal trivial) hw
          | «break» => exact .ok hΔ rfl hw
          | «continue» => exact hc.elim nofun nofun
      | fault h =>
          have hsame := h
          cases h <;> exact .error hΔ (.fault hsame) hw
  | cut hc => exact .cut (hc.imp (fun hr => hr.round.andThen _) fun hr => (hr.andThen _).round)

end Outcomes

theorem agree_turn {body body' increment increment' : Eval Unit}
    (hb : Agree side Jumps.all.Allows Γ Same body body')
    (hi : Agree side Never Γ Same increment increment') :
    Agree side Jumps.none.Allows Γ Same (Eval.turn body increment)
      (Eval.turn body' increment') := by
  have hround : Agree side Jumps.none.Allows Γ Same (Eval.round body) (Eval.round body') :=
    fun Δ hΔ w w' hw => (hb Δ hΔ w w' hw).round
  refine hround.bind fun Δ hΔ go go' hgo => ?_
  subst hgo
  cases go with
  | false => exact .pure fun _ _ => rfl
  | true => exact (hi.mono hΔ).never.bind fun _ _ _ _ _ => .pure fun _ _ => rfl

/-- Behind a body that does not continue, the increment can be part of the body. -/
theorem agree_spelled {body body' increment increment' : Eval Unit}
    (hb : Agree side Jumps.break.Allows Γ Same body body')
    (hi : Agree side Never Γ Same increment increment') :
    Agree side Jumps.none.Allows Γ Same (Eval.turn body increment)
      (Eval.round (body' >>= fun _ => increment')) := by
  intro Δ hΔ w w' hw
  have hturn : Eval.turn body increment w = (Ending.round (body w)).andThen _ :=
    Eval.bind_ending (Eval.round body) _ w
  have hround : Eval.round (body' >>= fun _ => increment') w' =
      Ending.round (Ending.andThen (body' w') fun _ => increment') :=
    congrArg Ending.round (Eval.bind_ending body' _ w')
  rw [hturn, hround]
  exact (hb Δ hΔ w w' hw).spelled (hi.mono hΔ)

theorem agree_loop {condition condition' : Eval Bool} {body body' increment increment' : Eval Unit}
    (hc : Agree side Never Γ Same condition condition')
    (ht : Agree side Jumps.none.Allows Γ Same (Eval.turn body increment)
      (Eval.turn body' increment')) (patience : Nat) :
    Agree side Jumps.none.Allows Γ Same (Eval.loop condition body increment patience)
      (Eval.loop condition' body' increment' patience) := by
  induction patience generalizing Γ with
  | zero => exact .throw (.fault .exhausted)
  | succ patience ih =>
      rw [Eval.loop_succ, Eval.loop_succ]
      refine hc.never.bind fun Δ hΔ go go' hgo => ?_
      subst hgo
      cases go with
      | false => exact .pure fun _ _ => rfl
      | true =>
          refine (ht.mono hΔ).bind fun Θ hΘ goOn goOn' hgoOn => ?_
          subst hgoOn
          have hle := le_trans hΔ hΘ
          cases goOn with
          | false => exact .pure fun _ _ => rfl
          | true => exact ih (hc.mono hle) (ht.mono hle)

theorem agree_returned {p q : Eval Unit} (h : Agree side Jumps.none.Allows Γ Same p q) :
    Agree side Never Γ Same (Eval.returned p) (Eval.returned q) :=
  fun Δ hΔ w w' hw => (h Δ hΔ w w' hw).returned

theorem agree_atCall (paren : Token) {R : Pairing → α → β → Prop} {p : Eval α} {q : Eval β}
    (h : Agree side Never Γ R p q) :
    Agree side Never Γ R (Eval.atCall paren p) (Eval.atCall paren q) :=
  fun Δ hΔ w w' hw => (h Δ hΔ w w' hw).atCall paren

/-! ### Calls -/

/-- Statements with loops written out that do the same. -/
def Runs (side : Side) (run run' : Site → Stmt → Eval Unit) : Prop :=
  ∀ {Γ : Pairing} {j : Jumps} {f : Shift} {site site' : Site} {s s' : Stmt},
    Stmt.WrittenOut j f s s' → Γ.Sites f site site' →
    Agree side j.Allows Γ Same (run site s) (run' site' s')

section Running
variable {run run' : Site → Stmt → Eval Unit} (hrun : Runs side run run')
include hrun

theorem agree_body {j : Jumps} {f : Shift} {site site' : Site} {ss ss' : List Stmt}
    (h : StmtsWrittenOut j f ss ss') (hsite : Γ.Sites f site site') :
    Agree side j.Allows Γ Same (ss.forM (run site)) (ss'.forM (run' site')) := by
  induction ss generalizing Γ ss' with
  | nil =>
      cases h
      exact .pure fun _ _ => rfl
  | cons s ss ih =>
      cases h with
      | cons hs hss =>
          exact (hrun hs hsite).bind fun Δ hΔ _ _ _ => ih hss (hsite.mono hΔ)

theorem agree_callFunction {g g' : Closure} (hg : Γ.Functions g g') (arguments : List Value) :
    Agree side Never Γ Same (Eval.callFunction run g arguments)
      (Eval.callFunction run' g' arguments) := by
  obtain ⟨f, hsees, hopen, hd⟩ := hg.declaration
  unfold Eval.callFunction
  rw [hd.parameters]
  refine (agree_newScope hsees).bind fun Δ hΔ scope scope' hnew => ?_
  obtain ⟨hscope, hpair, hplain⟩ := hnew
  have hparameters : ∀ pvs : List (Token × Value),
      (∀ pv ∈ pvs, TokenKind.ofWord pv.1.lexeme = .identifier) → Agree side Never Δ Same
        (pvs.forM fun pv => Eval.define scope pv.1.lexeme pv.2)
        (pvs.forM fun pv => Eval.define scope' pv.1.lexeme pv.2) := by
    intro pvs hwords
    induction pvs with
    | nil => exact .pure fun _ _ => rfl
    | cons pv pvs ih =>
        obtain ⟨hword, hwords⟩ := List.forall_mem_cons.mp hwords
        exact (agree_define hpair hword pv.2).bind fun Θ hΘ _ _ _ => (ih hwords).mono hΘ
  refine (hparameters _ fun pv hpv => hd.words _ (List.of_mem_zip hpv).1).bind
    fun Θ hΘ _ _ _ => ?_
  have hsite : Θ.Sites f.inside ⟨g.home, scope⟩ ⟨g'.home, scope'⟩ :=
    ⟨hg.home, hΘ.plain hplain, hscope.mono hΘ⟩
  refine (agree_returned (agree_body hrun hd.body hsite)).bind fun Λ hΛ v v' hv => ?_
  cases hv
  rw [hg.isInitializer]
  by_cases hi : g.isInitializer = true
  · simp only [hi, if_true]
    have hthis : Agree side Never Λ Same _ _ :=
      agree_loadAt (((hsees.mono hΔ).mono hΘ).mono hΛ) 0 "this"
    rwa [hopen hi] at hthis
  · simp only [hi]
    exact .pure fun _ _ => rfl

theorem agree_callValue (callee : Value) (arguments : List Value) :
    Agree side Never Γ Same (Eval.callValue run callee arguments)
      (Eval.callValue run' callee arguments) := by
  refine .looking fun Δ hΔ w w' hw => ?_
  cases callee with
  | function r => exact agree_callFunction hrun (hw.functions.get r) arguments
  | «class» r =>
      refine (agree_newInstance r).bind fun Θ hΘ i i' hi => ?_
      cases hi
      rcases hw.method? r "init" with ⟨hm, hm'⟩ | ⟨g, g', hm, hm', hg⟩
      · simp only [hm, hm']
        exact .pure fun _ _ => rfl
      · simp only [hm, hm']
        refine (agree_bound (hg.mono hΘ) i).bind fun Λ _ k k' hk => ?_
        exact (agree_callFunction hrun hk arguments).bind fun _ _ _ _ _ => .pure fun _ _ => rfl
  | clock home =>
      dsimp only
      rw [hw.now]
      exact .pure fun _ _ => rfl
  | _ => exact .pure fun _ _ => rfl

end Running

/-! ### Units and modules -/

/-- The same completion, unless the limit cut the unit short. -/
def UnitOutcomes (side : Side) (Γ : Pairing) (r r' : Ending Eval.Completion) : Prop :=
  Outcomes side Jumps.none.Allows Γ Same r r' ∨
    match side with
    | .first => r.UnitShort
    | .second => r'.UnitShort

theorem Outcomes.reported {r r' : Ending Unit} (h : Outcomes side Jumps.none.Allows Γ Same r r')
    (home : Ref .interpreter) : UnitOutcomes side Γ (r.reported home) (r'.reported home) := by
  cases h with
  | ok hΔ _ hw => exact .inl (.ok hΔ rfl hw)
  | error hΔ hi hw =>
      cases hi with
      | signal hc => exact .inl (.error hΔ (.signal hc) hw)
      | fault h =>
          have hsame := h
          cases h with
          | error e => exact .inl (.ok hΔ rfl (hw.reportRuntime home e))
          | crash c | lookUp | exhausted => exact .inl (.error hΔ (.fault hsame) hw)
  | cut hc =>
      cases side with
      | first => exact .inr (Ending.Short.reported hc home)
      | second => exact .inr (Ending.Short.reported hc home)

theorem UnitOutcomes.loaded {r r' : Ending Eval.Completion} (h : UnitOutcomes side Γ r r')
    (loader : Ref .loader) (token : Token) (name : String) (place : RealPath) (m : Ref .module) :
    Outcomes side Jumps.none.Allows Γ Same (r.loaded loader token name place m)
      (r'.loaded loader token name place m) := by
  rcases h with h | h
  · cases h with
    | @ok Δ completion _ w w' hΔ hsame hw =>
        cases hsame
        have hforgotten := hw.updateLoader loader fun l => l.forget place
        cases completion with
        | completed => exact .ok hΔ rfl hw
        | rejected => exact .error hΔ (.fault (.error _)) hforgotten
        | failed e => exact .error hΔ (.fault (.error _)) hforgotten
    | error hΔ hi hw => exact .error hΔ hi hw
    | cut hc =>
        refine .cut (hc.imp (fun hr => ?_) fun hr => ?_)
        · cases r with
          | ok completion w => exact hr.elim
          | error i w => exact hr
        · cases r' with
          | ok completion w => exact hr.elim
          | error i w => exact hr
  · apply Outcomes.cut
    cases side with
    | first => exact Ending.UnitShort.loaded h loader token name place m
    | second => exact Ending.UnitShort.loaded h loader token name place m

section Running
variable {run run' : Site → Stmt → Eval Unit} (hrun : Runs side run run') {w w' : World}
  {home : Ref .interpreter}
include hrun

theorem unitOutcomes_runStatements (hw : Γ.Worlds w w') {ss ss' : List Stmt}
    (h : StmtsWrittenOut .none id ss ss') :
    UnitOutcomes side Γ (Eval.runStatements run home ss w)
      (Eval.runStatements run' home ss' w') := by
  have hi := hw.interpreters.get home
  have hsite : Γ.Sites id ⟨home, w.globals home⟩ ⟨home, w'.globals home⟩ :=
    ⟨rfl, hi.plain, .root hi.pair hi.parent hi.parent'⟩
  exact (agree_body hrun h hsite Γ (le_refl Γ) w w' hw).reported home

theorem unitOutcomes_execute (hw : Γ.Worlds w w') {u u' : CompiledUnit} (hu : u.WrittenOut u') :
    UnitOutcomes side Γ (Eval.execute run home u w) (Eval.execute run' home u' w') := by
  have hok : u'.ok = u.ok := by
    unfold CompiledUnit.ok
    rw [hu.errorCount]
  unfold Eval.execute
  rw [hok]
  by_cases h : u.ok = true
  · rw [if_pos h, if_pos h, hu.constants, hu.file]
    have hprepared := hw.updateInterpreter home
      (f := fun i => { i with constants := u.constants, file := some u.file })
      (fun _ _ => rfl) fun _ => rfl
    exact unitOutcomes_runStatements hrun hprepared (hu.statements h)
  · rw [if_neg h, if_neg h, hu.errorCount, hu.file]
    exact .inl (.ok (le_refl Γ) rfl (hw.log _))

/-- A module is prepared alike, unless its nesting goes beyond the limit. -/
theorem unitOutcomes_module (hw : Γ.Worlds w w') {n m : Nat} (hfits : side.Fits n m)
    (file source : String) :
    UnitOutcomes side Γ
      (Eval.execute run home (w.compile (2 * n) home file source).1
        (w.compile (2 * n) home file source).2)
      (Eval.execute run' home (w'.compile (2 * m) home file source).1
        (w'.compile (2 * m) home file source).2) := by
  have hi := hw.interpreter home
  have hknown : (w'.scopes.get (w'.interpreters.get home).globals).values.names =
      (w.scopes.get (w.interpreters.get home).globals).values.names := by
    rw [hw.scopes.values (hw.interpreters.get home).pair]
  have hconstants : (w'.interpreters.get home).constants = (w.interpreters.get home).constants := by
    rw [hi]
  have hrejected : ∀ {run : Site → Stmt → Eval Unit} {v : World} {levels : Nat},
      Notice.TooDeep (v.text levels home file source).notices →
      Ending.UnitShort (Eval.execute run home (v.compile levels home file source).1
        (v.compile levels home file source).2) := by
    intro run v levels hdeep
    have hok : (v.text levels home file source).unit.ok ≠ true := by
      intro hok
      obtain ⟨place, hplace⟩ := hdeep
      exact List.countP_eq_zero.mp (UnitText.notices_ok hok).2 _ hplace rfl
    unfold Eval.execute
    rw [if_neg (show ¬(v.compile levels home file source).1.ok = true from hok)]
    exact UnitCutShort.rejected _ hdeep
  have hsame : CompiledUnit.ofSource (2 * n) file source
        (w.scopes.get (w.interpreters.get home).globals).values.names
        (w.interpreters.get home).constants =
      CompiledUnit.ofSource (2 * m) file source
        (w.scopes.get (w.interpreters.get home).globals).values.names
        (w.interpreters.get home).constants →
      UnitOutcomes side Γ
        (Eval.execute run home (w.compile (2 * n) home file source).1
          (w.compile (2 * n) home file source).2)
        (Eval.execute run' home (w'.compile (2 * m) home file source).1
          (w'.compile (2 * m) home file source).2) := by
    intro hunit
    unfold World.compile
    dsimp only
    rw [hknown, hconstants, ← hunit]
    refine unitOutcomes_execute hrun (hw.publishAll home _) ?_
    exact (w.text (2 * n) home file source).writtenOut
  cases side with
  | first =>
      have hle : 2 * n ≤ 2 * m := by
        have h : 4 * n ≤ m := hfits
        omega
      rcases CompiledUnit.ofSource_levels hle file source
        (w.scopes.get (w.interpreters.get home).globals).values.names
        (w.interpreters.get home).constants with hdeep | hunit
      · exact .inr (hrejected hdeep)
      · exact hsame hunit
  | second =>
      rcases CompiledUnit.ofSource_levels (Nat.mul_le_mul_left 2 hfits) file source
        (w.scopes.get (w.interpreters.get home).globals).values.names
        (w.interpreters.get home).constants with hdeep | hunit
      · refine .inr (hrejected ?_)
        unfold World.text UnitText.notices
        dsimp only
        rw [hknown, hconstants]
        exact hdeep
      · exact hsame hunit.symm

theorem agree_loadModule {n m : Nat} (hfits : side.Fits n m) (loader : Ref .loader) (token : Token)
    (name : String) (place : RealPath) (source : String) :
    Agree side Jumps.none.Allows Γ Same
      (Eval.loadModule (2 * n) run loader token name place source)
      (Eval.loadModule (2 * m) run' loader token name place source) := by
  intro Δ hΔ w w' hw
  have hnext : w'.interpreters.next = w.interpreters.next := hw.interpreters.next
  obtain ⟨Θ, hΘ, hadd⟩ := (hw.log (.moduleLoading name place.text)).addInterpreter name loader
  have henrolled : Θ.Worlds (w.enroll name loader place) (w'.enroll name loader place) := by
    unfold World.enroll
    dsimp only
    rw [hnext, hw.modules]
    refine Worlds.updateLoader ?_ loader _
    exact { hadd with modules := by rw [hadd.modules] }
  have hunits : UnitOutcomes side Θ
      (Eval.execute run w.interpreters.next _ _) (Eval.execute run' w.interpreters.next _ _) :=
    unitOutcomes_module hrun henrolled hfits place.text source
  have hloaded := hunits.loaded loader token name place w.modules.next
  rw [Eval.loadModule_ending, Eval.loadModule_ending, hnext, hw.modules]
  exact hloaded.le hΘ

theorem agree_importModule {n m : Nat} (hfits : side.Fits n m) (home : Ref .interpreter)
    (token : Token) :
    Agree side Jumps.none.Allows Γ Same (Eval.importModule (2 * n) run home token)
      (Eval.importModule (2 * m) run' home token) := by
  refine .looking fun Δ hΔ w w' hw => ?_
  have hloader : (w'.interpreters.get home).loader = (w.interpreters.get home).loader := by
    rw [hw.interpreter home]
  dsimp only
  rw [hw.findModule, hw.loaders, hloader]
  cases w.findModule home (importedModule token) with
  | nothing => exact agree_fail _ _
  | nameTooLong => exact agree_crash _
  | entry place e =>
      dsimp only
      cases (w.loaders.get (w.interpreters.get home).loader).cached? place with
      | some m =>
          exact Agree.bind (R := Same) (.modify fun Θ hΘ w w' hw => hw.log _)
            fun _ _ _ _ _ => .pure fun _ _ => rfl
      | none =>
          refine (agree_readModule token _ e).bind fun Θ hΘ source source' hsource => ?_
          cases hsource
          exact agree_loadModule hrun hfits _ token _ place source

end Running

/-! ### Trees -/

/-- Trees with loops written out do the same, with the levels that the two runs have. -/
structure LevelAgrees (side : Side) (patience n m : Nat) : Prop where
  expression : ∀ {Γ : Pairing} {f : Shift} {site site' : Site} {e e' : Expr},
    Expr.WrittenOut f e e' → Γ.Sites f site site' →
    Agree side Never Γ Same (Eval.expression patience n site e)
      (Eval.expression patience m site' e')
  call : ∀ {Γ : Pairing} (callee : Value) (arguments : List Value),
    Agree side Never Γ Same (Eval.call patience n callee arguments)
      (Eval.call patience m callee arguments)
  statement : Runs side (Eval.statement patience n) (Eval.statement patience m)

namespace LevelAgrees
variable {patience n m : Nat} {f : Shift} {site site' : Site}

theorem optional (ih : LevelAgrees side patience n m) {e e' : Option Expr}
    (he : ExprsWrittenOut f e.toList e'.toList) (hsite : Γ.Sites f site site') :
    Agree side Never Γ Same (Eval.optional patience n site e)
      (Eval.optional patience m site' e') := by
  cases he.option with
  | none => exact .pure fun _ _ => rfl
  | some hv => exact ih.expression hv hsite

theorem advance (ih : LevelAgrees side patience n m) {e e' : Option Expr}
    (he : ExprsWrittenOut f e.toList e'.toList) (hsite : Γ.Sites f site site') :
    Agree side Never Γ Same (Eval.advance patience n site e)
      (Eval.advance patience m site' e') := by
  cases he.option with
  | none => exact .pure fun _ _ => rfl
  | some hv => exact (ih.expression hv hsite).bind fun _ _ _ _ _ => .pure fun _ _ => rfl

theorem arguments (ih : LevelAgrees side patience n m) {es es' : List Expr}
    (he : ExprsWrittenOut f es es') (hsite : Γ.Sites f site site') :
    Agree side Never Γ Same (es.mapM (Eval.expression patience n site))
      (es'.mapM (Eval.expression patience m site')) := by
  induction es generalizing Γ es' with
  | nil =>
      cases he
      exact .pure fun _ _ => rfl
  | cons e es ihes =>
      cases he with
      | cons he hes =>
          rw [List.mapM_cons, List.mapM_cons]
          refine (ih.expression he hsite).bind fun Δ hΔ v v' hv => ?_
          refine (ihes hes (hsite.mono hΔ)).bind fun _ _ vs vs' hvs => .pure fun _ _ => ?_
          cases hv
          cases hvs
          rfl

theorem expression_succ (ih : LevelAgrees side patience n m) {e e' : Expr}
    (he : Expr.WrittenOut f e e') (hsite : Γ.Sites f site site') :
    Agree side Never Γ Same (Eval.expression patience (n + 1) site e)
      (Eval.expression patience (m + 1) site' e') := by
  unfold Eval.expression
  cases he with
  | literal value => exact .pure fun _ _ => rfl
  | grouping he => exact ih.expression he hsite
  | name use | this use => exact agree_read hsite use
  | assign hname he =>
      refine (ih.expression he hsite).bind fun Δ hΔ v v' hv => ?_
      cases hv
      exact (agree_assign (hsite.mono hΔ) _ hname v).bind fun _ _ _ _ _ => .pure fun _ _ => rfl
  | unary he =>
      refine (ih.expression he hsite).bind fun Δ hΔ v v' hv => ?_
      cases hv
      exact agree_ofOperator _ _
  | binary ha hb =>
      refine (ih.expression ha hsite).bind fun Δ hΔ v v' hv => ?_
      refine (ih.expression hb (hsite.mono hΔ)).bind fun Θ hΘ u u' hu => ?_
      cases hv
      cases hu
      exact agree_ofOperator _ _
  | @logical _ _ _ _ _ op _ ha hb =>
      refine (ih.expression ha hsite).bind fun Δ hΔ v v' hv => ?_
      cases hv
      by_cases h : op.decides v = true
      · simp only [h, if_true]
        exact .pure fun _ _ => rfl
      · simp only [h]
        exact ih.expression hb (hsite.mono hΔ)
  | call hcallee hes =>
      refine (ih.expression hcallee hsite).bind fun Δ hΔ callee callee' hc => ?_
      refine (ih.arguments hes (hsite.mono hΔ)).bind fun Θ hΘ vs vs' hvs => ?_
      cases hc
      cases hvs
      exact (agree_checkCall callee _ vs.length).bind fun _ _ _ _ _ =>
        agree_atCall _ (ih.call callee vs)
  | get he =>
      refine (ih.expression he hsite).bind fun Δ hΔ v v' hv => ?_
      cases hv
      exact agree_property v _
  | set hname ha hb =>
      refine (ih.expression ha hsite).bind fun Δ hΔ v v' hv => ?_
      cases hv
      refine (agree_checkFields v _).bind fun Θ hΘ _ _ _ => ?_
      refine (ih.expression hb ((hsite.mono hΔ).mono hΘ)).bind fun Λ hΛ u u' hu => ?_
      cases hu
      exact (agree_setProperty v hname u).bind fun _ _ _ _ _ => .pure fun _ _ => rfl
  | super use method => exact agree_superMethod hsite use method
  | lambda hd =>
      exact agree_newFunction (hsite.function hd)

/-- The condition of a loop. -/
theorem test (ih : LevelAgrees side patience n m) {c c' : Expr} (hc : Expr.WrittenOut f c c')
    (hsite : Γ.Sites f site site') :
    Agree side Never Γ Same (Value.truthy <$> Eval.expression patience n site c)
      (Value.truthy <$> Eval.expression patience m site' c') :=
  (ih.expression hc hsite).map fun _ _ _ hv => congrArg Value.truthy hv

end LevelAgrees

/-- The increment of a loop, which is the last statement of the body in the second tree. -/
theorem agree_increment {patience n k : Nat}
    (ih : ∀ l, side.Fits n l → LevelAgrees side patience n l) (hpos : side = .first → 0 < k)
    (hfits : ∀ l, k = l + 1 → side.Fits n l) {f : Shift} {site site' : Site} {e e' : Option Expr}
    (he : ExprsWrittenOut f e.toList e'.toList) (hsite : Γ.Sites f site site') :
    Agree side Never Γ Same (Eval.advance patience n site e)
      ((e'.toList.map Stmt.expression).forM (Eval.statement patience k site')) := by
  cases he.option with
  | none => exact .pure fun _ _ => rfl
  | @some e e' hv =>
      refine Agree.level (q := fun k => Eval.statement patience k site' (.expression e') >>=
        fun _ => pure ()) rfl hpos fun l hl => ?_
      subst hl
      rw [bind_pure_unit]
      exact ((ih l (hfits l rfl)).expression hv hsite).bind fun _ _ _ _ _ =>
        .pure fun _ _ => rfl

/-- A round and the increment after it, and a round in a block that ends with the increment. -/
theorem agree_spelledTurn {patience n m : Nat}
    (ih : ∀ l, side.Fits n l → LevelAgrees side patience n l) (hin : side.Inside n m) {f : Shift}
    {site site' : Site} {s s' : Stmt} {e e' : Option Expr}
    (hs : Stmt.WrittenOut .break f.under s s') (he : ExprsWrittenOut f.under e.toList e'.toList)
    (hsite : Γ.Sites f site site') :
    Agree side Jumps.none.Allows Γ Same
      (Eval.turn (Eval.statement patience n site s) (Eval.advance patience n site e))
      (Eval.turn (Eval.statement patience m site' (.block (s' :: e'.toList.map .expression)))
        (pure ())) := by
  rw [Eval.turn_pure]
  refine Agree.level (q := fun m => Eval.round
    (Eval.statement patience m site' (.block (s' :: e'.toList.map .expression)))) rfl hin.pos
    fun k hk => ?_
  subst hk
  rw [Eval.round_block]
  refine agree_extraScope hsite.sees hsite.plain fun Δ hΔ r' hr' => ?_
  have hunder : Δ.Sites f.under site { site' with scope := r' } :=
    ⟨hsite.home, hΔ.plain hsite.plain, hr'⟩
  exact agree_spelled ((ih k hin.fits).statement hs hunder)
    (agree_increment ih hin.pos_pred (fun l hl => (hl ▸ hin).fits_pred) he hunder)

/-- A loop, and one that has its increment in its body. -/
theorem agree_spelledLoop {patience n m : Nat}
    (ih : ∀ l, side.Fits n l → LevelAgrees side patience n l) (hfits : side.Fits n m)
    (hin : side.Inside n m) {f : Shift} {site site' : Site} {c c' : Expr} {s s' : Stmt}
    {e e' : Option Expr} (hc : Expr.WrittenOut f c c') (hs : Stmt.WrittenOut .break f.under s s')
    (he : ExprsWrittenOut f.under e.toList e'.toList) (hsite : Γ.Sites f site site') :
    Agree side Jumps.none.Allows Γ Same (Eval.statement patience (n + 1) site (.while c s e))
      (Eval.statement patience (m + 1) site'
        (.while c' (.block (s' :: e'.toList.map .expression)) none)) := by
  rw [Eval.statement_while, Eval.statement_while]
  exact agree_loop ((ih m hfits).test hc hsite) (agree_spelledTurn ih hin hs he hsite) patience

/-! ### Statements -/

theorem LevelAgrees.statement_succ {patience n m : Nat}
    (ih : ∀ l, side.Fits n l → LevelAgrees side patience n l) (hfits : side.Fits (n + 1) (m + 1)) :
    Runs side (Eval.statement patience (n + 1)) (Eval.statement patience (m + 1)) := by
  intro Γ j f site site' s s' hs hsite
  have hm := ih m hfits.pred
  have hnone : ∀ {c}, Jumps.none.Allows c → j.Allows c := by
    intro c hc
    cases c with
    | «return» v => trivial
    | «break» | «continue» => exact hc.elim nofun nofun
  cases hs with
  | expression he =>
      unfold Eval.statement
      exact ((hm.expression he hsite).bind fun _ _ _ _ _ => .pure fun _ _ => rfl).never
  | print he =>
      unfold Eval.statement
      refine (hm.expression he hsite).never.bind fun Δ hΔ v v' hv => .modify fun Θ _ w w' hw => ?_
      cases hv
      rw [hw.display, hw.console]
      exact { hw with console := rfl }
  | var hopen hname he =>
      rw [Eval.statement_var, Eval.statement_var]
      refine (hm.optional he hsite).never.bind fun Δ hΔ v v' hv => ?_
      cases hv
      exact agree_bindName (hsite.mono hΔ) hopen hname v
  | block hss =>
      unfold Eval.statement
      refine (agree_newScope hsite.sees).bind fun Δ hΔ r r' hnew => ?_
      obtain ⟨hr, hpair, hplain⟩ := hnew
      exact agree_body hm.statement hss ⟨hsite.home, hplain, hr⟩
  | @«if» _ _ _ _ _ _ t t' hc hs ht =>
      unfold Eval.statement
      refine (hm.expression hc hsite).never.bind fun Δ hΔ v v' hv => ?_
      cases hv
      by_cases h : v.truthy = true
      · simp only [h, if_true]
        exact hm.statement hs (hsite.mono hΔ)
      · simp only [h]
        cases ht.option with
        | none => exact .pure fun _ _ => rfl
        | some hst => exact hm.statement hst (hsite.mono hΔ)
  | «while» hc hs he =>
      rw [Eval.statement_while, Eval.statement_while]
      have hturn := agree_turn (hm.statement hs hsite) (hm.advance he hsite)
      exact (agree_loop (hm.test hc hsite) hturn patience).weaken fun _ => hnone
  | spelled hc hs he =>
      exact (agree_spelledLoop ih hfits.pred hfits.inside hc hs he hsite).weaken fun _ => hnone
  | @wrapped _ _ c c' s s' e e' hc hs he =>
      refine Agree.weaken (agree_extraScope hsite.sees hsite.plain fun Δ hΔ r' hr' => ?_)
        fun _ => hnone
      have hunder : Δ.Sites f.under site { site' with scope := r' } :=
        ⟨hsite.home, hΔ.plain hsite.plain, hr'⟩
      refine Agree.level (q := fun m => Eval.statement patience m { site' with scope := r' }
        (.while c' (.block (s' :: e'.toList.map .expression)) none) >>= fun _ => pure ()) rfl
        hfits.pos fun k hk => ?_
      subst hk
      rw [bind_pure_unit]
      exact agree_spelledLoop ih hfits.fits_twice hfits.inside_twice hc hs he hunder
  | «break» hj =>
      unfold Eval.statement
      exact .throw (.signal hj)
  | «continue» hj =>
      unfold Eval.statement
      exact .throw (.signal hj)
  | «return» he =>
      rw [Eval.statement_return, Eval.statement_return]
      refine (hm.optional he hsite).never.bind fun Δ hΔ v v' hv => ?_
      cases hv
      exact .throw (.signal trivial)
  | @function _ _ d d' hopen hname hd =>
      unfold Eval.statement
      dsimp only
      rw [hd.displayName]
      refine (agree_newFunction (hsite.function hd)).bind fun Δ hΔ v v' hv => ?_
      cases hv
      exact agree_bindName (hsite.mono hΔ) hopen hname v
  | root hopen hname hds =>
      unfold Eval.statement
      exact agree_declareClass hsite hopen hname none (fun _ => hds) nofun
  | @derived _ _ _ use _ _ hopen hname hds =>
      unfold Eval.statement
      have hsuper : Agree side j.Allows Γ Same (Eval.superclass site use)
          (Eval.superclass site' (use.shift f)) := agree_superclass hsite use
      have hparent := hsuper.map (S := fun _ c c' => c = c' ∧ c.isSome = true) (f := some)
        (g := some) fun _ _ _ hc => ⟨congrArg some hc, rfl⟩
      refine hparent.bind fun Δ hΔ c c' hc => ?_
      obtain ⟨rfl, hsome⟩ := hc
      refine agree_declareClass (hsite.mono hΔ) hopen hname c (fun hnone => ?_) fun _ => hds
      rw [hnone] at hsome
      cases hsome
  | importModule hopen =>
      unfold Eval.statement
      dsimp only
      rw [hsite.home]
      refine ((agree_importModule hm.statement hfits.pred site.home _).weaken fun _ => hnone).bind
        fun Δ hΔ m m' hm => ?_
      cases hm
      intro Θ hΘ w w' hw
      have hsite := (hsite.mono hΔ).mono hΘ
      have hpair := hw.scopes.pair_of_sees hsite.sees hopen
      exact agree_defineModule hpair hsite.plain _ m Θ (le_refl Θ) w w' hw

/-- The first run has no level left. -/
theorem LevelAgrees.first (patience m : Nat) : LevelAgrees .first patience 0 m := by
  constructor
  case expression => exact fun _ _ => .overflow rfl
  case call => exact fun _ _ => .overflow rfl
  case statement => exact fun _ _ => .overflow rfl

/-- The second run has no level left. -/
theorem LevelAgrees.second (patience n : Nat) : LevelAgrees .second patience n 0 := by
  constructor
  case expression => exact fun _ _ => .overflow rfl
  case call => exact fun _ _ => .overflow rfl
  case statement => exact fun _ _ => .overflow rfl

/-- Trees with loops written out do the same, if the other run has enough levels. -/
theorem levelAgrees (side : Side) (patience : Nat) {n m : Nat} (hfits : side.Fits n m) :
    LevelAgrees side patience n m := by
  induction n generalizing m with
  | zero =>
      cases side with
      | first => exact .first patience m
      | second =>
          obtain rfl : m = 0 := Nat.le_zero.mp hfits
          exact .second patience 0
  | succ n ih =>
      cases m with
      | zero =>
          cases side with
          | first => exact (Nat.not_succ_le_zero _ hfits).elim
          | second => exact .second patience (n + 1)
      | succ m =>
          have hm := ih hfits.pred
          constructor
          case expression => exact hm.expression_succ
          case call => exact fun callee arguments => agree_callValue hm.statement callee arguments
          case statement => exact LevelAgrees.statement_succ (fun l hl => ih hl) hfits

end Pairing
end Treewalk
