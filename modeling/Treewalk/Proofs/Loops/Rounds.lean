import Treewalk.Proofs.Loops.Runs
import Treewalk.Proofs.Loops.Diagonal

/-!
# Rounds of loops

What a C-style loop does, said without the tree into which a `for` loop is read: one new scope for
the initializer, which is run once; a test before each round; the increment once after every round
that ended normally or with a `continue` of the body's own, and never after another one.
-/
namespace Treewalk

/-- After these ends of the body a loop goes on: a normal one, or a `continue` of the body's own. -/
inductive Passed (own : Signal → Prop) : Ending Unit → World → Prop
  | normally (w : World) : Passed own (.ok () w) w
  | continued (w : World) : own .continue → Passed own (.error (.signal .continue) w) w

/-- The run of a loop that makes so many tests. -/
inductive Rounds (own : Signal → Prop) (test : Eval Bool) (body advance : Eval Unit) :
    Nat → World → Ending Unit → Prop
  | finished {w v : World} : test w = .ok false v → Rounds own test body advance 1 w (.ok () v)
  | untested {w v : World} {i : Interrupt} : test w = .error i v →
      Rounds own test body advance 1 w (.error i v)
  | broken {w v u : World} : test w = .ok true v → body v = .error (.signal .break) u →
      own .break → Rounds own test body advance 1 w (.ok () u)
  | left {w v u : World} {i : Interrupt} : test w = .ok true v → body v = .error i u →
      i ≠ .signal .break → i ≠ .signal .continue → Rounds own test body advance 1 w (.error i u)
  | stuck {w v u x : World} {i : Interrupt} : test w = .ok true v → Passed own (body v) u →
      advance u = .error i x → Rounds own test body advance 1 w (.error i x)
  | next {n : Nat} {w v u x : World} {r : Ending Unit} : test w = .ok true v →
      Passed own (body v) u → advance u = .ok () x → Rounds own test body advance n x r →
      Rounds own test body advance (n + 1) w r

/-- The test before a round. Without a condition there is nothing to test. -/
def Eval.test (patience levels : Nat) (site : Site) : Option Expr → Eval Bool
  | some c => Value.truthy <$> expression patience levels site c
  | none => return true

/-- The run of a C-style loop that makes so many tests. -/
inductive ForRuns (patience levels : Nat) (site : Site) (condition increment : Option Expr)
    (body : Stmt) : Option Stmt → Nat → World → Ending Unit → Prop
  | bare {n : Nat} {w : World} {r : Ending Unit} :
      Rounds body.Raises (Eval.test patience levels site condition)
        (Eval.statement patience levels site body)
        (Eval.advance patience levels site increment) n w r →
      ForRuns patience levels site condition increment body none n w r
  | opened {n : Nat} {scope : Ref .scope} {initial : Stmt} {w v u : World} {r : Ending Unit} :
      Eval.newScope site.scope w = .ok scope v →
      Eval.statement patience (levels + 1) { site with scope := scope } initial v = .ok () u →
      Rounds body.Raises (Eval.test patience levels { site with scope := scope } condition)
        (Eval.statement patience levels { site with scope := scope } body)
        (Eval.advance patience levels { site with scope := scope } increment) n u r →
      ForRuns patience levels site condition increment body (some initial) n w r
  | unopened {scope : Ref .scope} {initial : Stmt} {w v u : World} {i : Interrupt} :
      Eval.newScope site.scope w = .ok scope v →
      Eval.statement patience (levels + 1) { site with scope := scope } initial v = .error i u →
      ForRuns patience levels site condition increment body (some initial) 0 w (.error i u)

/-- How many levels a `for` loop nests deeper than its clauses. -/
def Parser.forDepth : Option Stmt → Nat
  | none => 1
  | some _ => 2

/-! ### Loops and rounds -/

namespace Eval
variable {own : Signal → Prop} {test : Eval Bool} {body advance : Eval Unit} {patience : Nat}
  {w : World} {r : Ending Unit}

/-- What a loop does next. -/
theorem loop_run (patience : Nat) (w : World) : loop test body advance (patience + 1) w =
    match test w with
    | .error i v => .error i v
    | .ok false v => .ok () v
    | .ok true v =>
        match body v with
        | .error (.signal .break) u => .ok () u
        | .error (.signal .continue) u | .ok _ u =>
            (advance >>= fun _ => loop test body advance patience) u
        | .error i u => .error i u := by
  conv_lhs => unfold loop
  rw [bind_run]
  cases test w with
  | error i v => rfl
  | ok go v =>
      cases go with
      | false => rfl
      | true =>
          simp only [if_true, bind_run, round]
          cases body v with
          | ok a u => simp only [if_true, bind_run]
          | error i u =>
              cases i with
              | signal c =>
                  cases c with
                  | «continue» => simp only [if_true, bind_run]
                  | _ => rfl
              | _ => rfl

/-- So after a round that is passed. -/
theorem loop_passed {v u : World} (ht : test w = .ok true v) (hb : Passed own (body v) u) :
    loop test body advance (patience + 1) w =
      (advance >>= fun _ => loop test body advance patience) u := by
  rw [loop_run, ht]
  generalize hr : body v = r at hb
  cases hb <;> simp only [hr]

/-- A loop does what its rounds do. -/
theorem loop_of_rounds {n : Nat} (h : Rounds own test body advance n w r) (hn : n ≤ patience) :
    loop test body advance patience w = r := by
  induction h generalizing patience with
  | next ht hb ha _ ih =>
      obtain ⟨patience, rfl⟩ := Nat.exists_eq_add_of_le' (Nat.le_trans (Nat.succ_pos _) hn)
      rw [loop_passed ht hb, bind_run, ha]
      exact ih (Nat.le_of_succ_le_succ hn)
  | stuck ht hb ha =>
      obtain ⟨patience, rfl⟩ := Nat.exists_eq_add_of_le' hn
      rw [loop_passed ht hb, bind_run, ha]
  | finished ht | untested ht =>
      obtain ⟨patience, rfl⟩ := Nat.exists_eq_add_of_le' hn
      rw [loop_run, ht]
  | broken ht hb _ =>
      obtain ⟨patience, rfl⟩ := Nat.exists_eq_add_of_le' hn
      simp only [loop_run, ht, hb]
  | left ht hb hbreak hcontinue =>
      obtain ⟨patience, rfl⟩ := Nat.exists_eq_add_of_le' hn
      simp only [loop_run, ht, hb]

/-- What stays true while a loop runs, and the signals that it raises on the way. -/
structure Keeps {α : Type} (P : World → Prop) (own : Signal → Prop) (p : Eval α) : Prop where
  ok : ∀ {w v a}, P w → p w = .ok a v → P v
  signal : ∀ {w v c}, P w → p w = .error (.signal c) v → own c ∧ P v

/-- Whatever a loop does, unless it runs out of rounds, its rounds do. -/
theorem rounds_of_loop {P : World → Prop} {other : Signal → Prop} (ht : Keeps P other test)
    (hb : Keeps P own body) (ha : Keeps P other advance) (hw : P w)
    (hr : ∀ v, loop test body advance patience w ≠ .error .exhausted v) :
    ∃ n ≤ patience, Rounds own test body advance n w (loop test body advance patience w) := by
  induction patience generalizing w with
  | zero => exact (hr w rfl).elim
  | succ patience ih =>
      have hone : 1 ≤ patience + 1 := Nat.succ_pos _
      have hpassed : ∀ {v u : World}, test w = .ok true v → Passed own (body v) u → P u →
          ∃ n ≤ patience + 1, Rounds own test body advance n w
            (loop test body advance (patience + 1) w) := by
        intro v u htest hbody hu
        rw [loop_passed htest hbody, bind_run] at hr ⊢
        cases hadvance : advance u with
        | error i x => exact ⟨1, hone, .stuck htest hbody hadvance⟩
        | ok a x =>
            simp only [hadvance] at hr
            obtain ⟨n, hn, hrounds⟩ := ih (ha.ok hu hadvance) hr
            exact ⟨n + 1, Nat.succ_le_succ hn, .next htest hbody hadvance hrounds⟩
      cases htest : test w with
      | error i v =>
          rw [loop_run, htest]
          exact ⟨1, hone, .untested htest⟩
      | ok go v =>
          have hv := ht.ok hw htest
          cases go with
          | false =>
              rw [loop_run, htest]
              exact ⟨1, hone, .finished htest⟩
          | true =>
              cases hbody : body v with
              | ok a u => exact hpassed htest (hbody ▸ .normally u) (hb.ok hv hbody)
              | error i u =>
                  cases i with
                  | signal c =>
                      obtain ⟨hown, hu⟩ := hb.signal hv hbody
                      cases c with
                      | «continue» => exact hpassed htest (hbody ▸ .continued u hown) hu
                      | «break» =>
                          rw [loop_run, htest]
                          simp only [hbody]
                          exact ⟨1, hone, .broken htest hbody hown⟩
                      | «return» a =>
                          rw [loop_run, htest]
                          simp only [hbody]
                          exact ⟨1, hone, .left htest hbody nofun nofun⟩
                  | _ =>
                      rw [loop_run, htest]
                      simp only [hbody]
                      exact ⟨1, hone, .left htest hbody nofun nofun⟩

/-! ### `for` loops -/

section
variable {levels : Nat} {site : Site} {condition increment : Option Expr} {s : Stmt}

/-- A condition that was left out is read as one that holds. -/
theorem loop_test : loop
      (Value.truthy <$> expression patience levels site (condition.getD (.literal (.bool true))))
      (statement patience levels site s) advance patience =
    loop (Eval.test patience levels site condition) (statement patience levels site s) advance
      patience := by
  cases condition with
  | some c => rfl
  | none =>
      cases levels with
      | succ levels => rfl
      | zero => cases patience <;> rfl

theorem statement_bare : statement patience (levels + 1) site
      (Parser.forLoop none condition increment s) =
    loop (Eval.test patience levels site condition) (statement patience levels site s)
      (Eval.advance patience levels site increment) patience :=
  (statement_while patience levels site _ s increment).trans loop_test

theorem statement_opened (initial : Stmt) : statement patience (levels + 2) site
      (Parser.forLoop (some initial) condition increment s) = (do
    let scope ← newScope site.scope
    statement patience (levels + 1) { site with scope := scope } initial
    loop (Eval.test patience levels { site with scope := scope } condition)
      (statement patience levels { site with scope := scope } s)
      (Eval.advance patience levels { site with scope := scope } increment) patience) := by
  have hloop : ∀ site' : Site, statement patience (levels + 1) site'
        (.while (condition.getD (.literal (.bool true))) s increment) =
      loop (Eval.test patience levels site' condition) (statement patience levels site' s)
        (Eval.advance patience levels site' increment) patience := fun _ => statement_bare
  change newScope site.scope >>= (fun scope =>
    statement patience (levels + 1) { site with scope := scope } initial >>= fun _ =>
      statement patience (levels + 1) { site with scope := scope }
        (.while (condition.getD (.literal (.bool true))) s increment) >>= fun _ => pure ()) = _
  simp only [hloop, bind_pure_unit]

/-- A `for` loop does what a run of it does. -/
theorem forLoop_of_runs {initial : Option Stmt} {n : Nat}
    (h : ForRuns patience levels site condition increment s initial n w r) (hn : n ≤ patience) :
    statement patience (levels + Parser.forDepth initial) site
      (Parser.forLoop initial condition increment s) w = r := by
  cases h with
  | bare hrounds => exact (congrFun statement_bare w).trans (loop_of_rounds hrounds hn)
  | opened hscope hinitial hrounds =>
      refine (congrFun (statement_opened _) w).trans ?_
      rw [bind_run, hscope]
      dsimp only
      rw [bind_run, hinitial]
      exact loop_of_rounds hrounds hn
  | unopened hscope hinitial =>
      refine (congrFun (statement_opened _) w).trans ?_
      rw [bind_run, hscope]
      dsimp only
      rw [bind_run, hinitial]

end
end Eval

/-! ### Code that may run -/

/-- Code may run at a site: its world is paired with itself. -/
def World.Beside (w : World) (site : Site) : Prop :=
  ∃ Γ : Pairing, Γ.Worlds w w ∧ Γ.Sites id site site

namespace Eval
variable {α : Type} {w v : World} {site : Site} {patience levels : Nat} {inLoop inFunction : Bool}

/-- What agrees with itself. -/
theorem keeps_of_agree {allowed : Signal → Prop} {p : Eval α}
    (h : ∀ Γ : Pairing, Γ.Sites id site site → Pairing.Agree .second allowed Γ Pairing.Same p p) :
    Keeps (World.Beside · site) allowed p := by
  constructor
  case ok =>
    rintro w v a ⟨Γ, hw, hsite⟩ hp
    have hst := h Γ hsite Γ (Pairing.le_refl Γ) w w hw
    rw [hp] at hst
    cases hst with
    | ok hΔ _ hv => exact ⟨_, hv, hsite.mono hΔ⟩
    | cut hc => exact hc.elim
  case signal =>
    rintro w v c ⟨Γ, hw, hsite⟩ hp
    have hst := h Γ hsite Γ (Pairing.le_refl Γ) w w hw
    rw [hp] at hst
    cases hst with
    | error hΔ hi hv =>
        cases hi with
        | signal hc => exact ⟨hc, _, hv, hsite.mono hΔ⟩
        | fault hfault => cases hfault
    | cut hc => cases hc

/-- A statement raises the signals of its own jumps only. -/
theorem keeps_statement {s : Stmt} (hlegal : Node.Legal inLoop inFunction (.stmt s))
    (hnamed : (Node.stmt s).Named) :
    Keeps (World.Beside · site) s.Raises (statement patience levels site s) := by
  obtain ⟨j, hj⟩ := s.exists_jumps
  have hsame := hlegal.same id j hnamed (.inl rfl) (.inl rfl) fun c => (hj c).mpr
  refine keeps_of_agree fun Γ hsite => Pairing.Agree.weaken ?_ fun c => (hj c).mp
  exact (Pairing.levelAgrees .second patience (Nat.le_refl levels)).statement hsame hsite

theorem keeps_test {condition : Option Expr}
    (hlegal : ∀ e ∈ condition, Node.Legal inLoop inFunction (.expr e))
    (hnamed : ∀ e ∈ condition, (Node.expr e).Named) :
    Keeps (World.Beside · site) Pairing.Never (Eval.test patience levels site condition) := by
  cases condition with
  | none => exact ⟨fun hw hp => by cases hp; exact hw, fun _ hp => nomatch hp⟩
  | some e =>
      refine keeps_of_agree fun Γ hsite => ?_
      exact (Pairing.levelAgrees .second patience (Nat.le_refl levels)).test
        ((hlegal e rfl).same id (hnamed e rfl) (.inl rfl)) hsite

theorem keeps_advance {increment : Option Expr}
    (hlegal : ∀ e ∈ increment, Node.Legal inLoop inFunction (.expr e))
    (hnamed : ∀ e ∈ increment, (Node.expr e).Named) :
    Keeps (World.Beside · site) Pairing.Never (Eval.advance patience levels site increment) := by
  refine keeps_of_agree fun Γ hsite => ?_
  refine (Pairing.levelAgrees .second patience (Nat.le_refl levels)).advance
    (WrittenOut.expressions fun e he => ?_) hsite
  have he := Option.mem_toList.mp he
  exact (hlegal e he).same id (hnamed e he) (.inl rfl)

/-- In a new scope code may run. -/
theorem beside_newScope {scope : Ref .scope} (hw : w.Beside site)
    (hscope : newScope site.scope w = .ok scope v) : v.Beside { site with scope := scope } := by
  obtain ⟨Γ, hw, hsite⟩ := hw
  have hst : Pairing.Outcomes .second Pairing.Never Γ _ _ _ :=
    Pairing.agree_newScope hsite.sees Γ (Pairing.le_refl Γ) w w hw
  rw [hscope] at hst
  cases hst with
  | ok hΔ hr hv =>
      obtain ⟨hsees, -, hplain⟩ := hr
      rw [Shift.inside_id] at hsees
      exact ⟨_, hv, rfl, hplain, hsees⟩
  | cut hc => exact hc.elim

section
variable {condition increment : Option Expr} {s : Stmt} {r : Ending Unit}

/-- A loop does what its rounds do, where it is legal. -/
theorem rounds_of_clauses
    (hlegal : Node.Legal inLoop inFunction
      (.stmt (.while (condition.getD (.literal (.bool true))) s increment)))
    (hnamed : (Node.stmt (.while (condition.getD (.literal (.bool true))) s increment)).Named)
    (hw : w.Beside site)
    (hr : ∀ v, loop (Eval.test patience levels site condition) (statement patience levels site s)
      (Eval.advance patience levels site increment) patience w ≠ .error .exhausted v) :
    ∃ n ≤ patience, Rounds s.Raises (Eval.test patience levels site condition)
      (statement patience levels site s) (Eval.advance patience levels site increment) n w
      (loop (Eval.test patience levels site condition) (statement patience levels site s)
        (Eval.advance patience levels site increment) patience w) := by
  cases hlegal with
  | «while» hcondition hbody hincrement =>
      have htest : ∀ e ∈ condition, Node.Legal true inFunction (.expr e) ∧ (Node.expr e).Named := by
        intro e he
        cases he
        exact ⟨hcondition, hnamed.part (List.mem_cons_self ..)⟩
      have hadvance : ∀ e ∈ increment, (Node.expr e).Named := fun e he =>
        hnamed.part (List.mem_cons_of_mem _ (List.mem_cons_of_mem _
          (List.mem_map_of_mem (Option.mem_toList.mpr he))))
      have hnamedBody := hnamed.part (List.mem_cons_of_mem _ (List.mem_cons_self ..))
      exact rounds_of_loop (keeps_test (fun e he => (htest e he).1) fun e he => (htest e he).2)
        (keeps_statement hbody hnamedBody) (keeps_advance hincrement hadvance) hw hr

/-- Where a `for` loop is legal, it does what a C-style loop does. -/
theorem forLoop_iff_runs {initial : Option Stmt}
    (hlegal : Node.Legal inLoop inFunction
      (.stmt (Parser.forLoop initial condition increment s)))
    (hnamed : (Node.stmt (Parser.forLoop initial condition increment s)).Named)
    (hw : w.Beside site) (hr : ∀ v, r ≠ .error .exhausted v) :
    statement patience (levels + Parser.forDepth initial) site
        (Parser.forLoop initial condition increment s) w = r ↔
      ∃ n ≤ patience, ForRuns patience levels site condition increment s initial n w r := by
  refine ⟨?_, fun ⟨n, hn, hruns⟩ => forLoop_of_runs hruns hn⟩
  -- The loop is taken apart into its scope, its initializer and its rounds.
  rintro rfl
  cases initial with
  | none =>
      change ∀ v, statement patience (levels + 1) site _ w ≠ _ at hr
      change ∃ n ≤ patience, ForRuns patience levels site condition increment s none n w
        (statement patience (levels + 1) site (Parser.forLoop none condition increment s) w)
      rw [statement_bare] at hr ⊢
      obtain ⟨n, hn, hrounds⟩ := rounds_of_clauses hlegal hnamed hw hr
      exact ⟨n, hn, .bare hrounds⟩
  | some initial =>
      change ∀ v, statement patience (levels + 2) site _ w ≠ _ at hr
      change ∃ n ≤ patience, ForRuns patience levels site condition increment s (some initial) n w
        (statement patience (levels + 2) site
          (Parser.forLoop (some initial) condition increment s) w)
      rw [statement_opened] at hr ⊢
      cases hlegal with
      | block hlegals =>
          have hinitial := hlegals initial (List.mem_cons_self ..)
          have hloop := hlegals _ (List.mem_cons_of_mem _ (List.mem_singleton_self _))
          cases hscope : newScope site.scope w with
          | error i v => cases hscope
          | ok scope v =>
              have hv := beside_newScope hw hscope
              rw [bind_run, hscope] at hr ⊢
              dsimp only at hr ⊢
              rw [bind_run] at hr ⊢
              cases hrun : statement patience (levels + 1) { site with scope := scope } initial v with
              | error i u => exact ⟨0, Nat.zero_le _, .unopened hscope hrun⟩
              | ok _ u =>
                  rw [hrun] at hr
                  dsimp only at hr ⊢
                  have hkeeps : Keeps (World.Beside · { site with scope := scope }) initial.Raises
                      (statement patience (levels + 1) { site with scope := scope } initial) :=
                    keeps_statement hinitial (hnamed.block initial (List.mem_cons_self ..))
                  obtain ⟨n, hn, hrounds⟩ := rounds_of_clauses hloop
                    (hnamed.block _ (List.mem_cons_of_mem _ (List.mem_singleton_self _)))
                    (hkeeps.ok hv hrun) hr
                  exact ⟨n, hn, .opened hscope hrun hrounds⟩

end
end Eval

/-- Where a node is noted, code may run. -/
theorem Session.beside {steps : List SessionStep} {later earlier : List Event} {m : Moment}
    {site : Site} {n : Node} {w : World}
    (h : (Session.watch steps).notes = later ++ .node m site n w :: earlier) :
    w.Beside site := by
  have hpasses : Session.Passes steps ⟨w, earlier⟩ := .noted h
  have hnoted := (Session.watch_kept steps).noted m site n w
    (h ▸ List.mem_append_right _ (List.mem_cons_self ..))
  obtain ⟨-, frames, hat⟩ := Session.noted (fun hc : False => hc.elim) h
  have hsize := Nat.lt_of_le_of_lt (Nat.zero_le _) hat.stands.lt
  exact ⟨Pairing.diagonal w, hpasses.diagonal hsize, rfl, hnoted.open,
    Pairing.diagonal_sees hpasses.good.sane.outward hnoted.open.lt⟩

end Treewalk
