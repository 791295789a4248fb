import Treewalk.Proofs.Parentheses.Trees
import Treewalk.Proofs.Scopes.Visits

/-!
# Resolving parentheses

Name resolution of a tree with parentheses does what it does without them, unless it stops where
nesting goes beyond the limit. The one check that sees parentheses is that of a property that is set:
it asks whether the object is the bare name of a constant.
-/
namespace Treewalk

/-! ### Notices -/

/-- The second notices are the first ones, but that some may be missing: reports that a property of
a constant is set, where `P` holds of the property. -/
inductive Notice.Dropped (P : Token → Prop) : List Notice → List Notice → Prop
  | nil : Notice.Dropped P [] []
  | keep (notice : Notice) {ns ns' : List Notice} : Notice.Dropped P ns ns' →
      Notice.Dropped P (notice :: ns) (notice :: ns')
  | drop {name : Token} {ns ns' : List Notice} : P name → Notice.Dropped P ns ns' →
      Notice.Dropped P (.error ⟨.ofToken name, .constantFieldModified⟩ :: ns) ns'

namespace Notice.Dropped
variable {P : Token → Prop} {ns ns' : List Notice}

theorem refl (ns : List Notice) : Notice.Dropped P ns ns := by
  induction ns with
  | nil => exact .nil
  | cons notice ns ih => exact .keep notice ih

theorem append (h : Notice.Dropped P ns ns') {ms ms' : List Notice} (hm : Notice.Dropped P ms ms') :
    Notice.Dropped P (ns ++ ms) (ns' ++ ms') := by
  induction h with
  | nil => exact hm
  | keep notice _ ih => exact .keep notice ih
  | drop hname _ ih => exact .drop hname ih

/-- Where `P` holds of nothing, nothing is missing. -/
theorem eq_of_none (h : Notice.Dropped P ns ns') (hP : ∀ name, ¬P name) : ns' = ns := by
  induction h with
  | nil => rfl
  | keep notice _ ih => rw [ih]
  | drop hname _ _ => exact (hP _ hname).elim

theorem countErrors_le (h : Notice.Dropped P ns ns') : countErrors ns' ≤ countErrors ns := by
  induction h with
  | nil => exact Nat.le_refl _
  | keep notice _ ih =>
      cases notice with
      | error d =>
          rw [countErrors_error, countErrors_error]
          exact Nat.succ_le_succ ih
      | log l => rwa [countErrors_log, countErrors_log]
  | drop _ _ ih =>
      rw [countErrors_error]
      exact Nat.le_succ_of_le ih

end Notice.Dropped

/-! ### States -/

/-- The second state is the first one, but that such notices may be missing. -/
inductive Scoping.Misses (P : Token → Prop) (s : Scoping) : Scoping → Prop
  | mk {notices : Array Notice} : Notice.Dropped P s.notices.toList notices.toList →
      s.Misses P { s with notices := notices }

namespace Scoping.Misses
variable {P : Token → Prop} {s s' : Scoping}

theorem push (h : s.Misses P s') (notice : Notice) :
    { s with notices := s.notices.push notice }.Misses P
      { s' with notices := s'.notices.push notice } := by
  cases h with
  | mk h =>
      apply Misses.mk (s := { s with notices := s.notices.push notice })
      rw [Array.toList_push, Array.toList_push]
      exact h.append (.refl [notice])

theorem report (h : s.Misses P s') (token : Token) (error : StaticError) :
    (s.report token error).Misses P (s'.report token error) := h.push _

/-- The report that a property of a constant is set is missing. -/
theorem unreported (h : s.Misses P s') {name : Token} (hname : P name) :
    (s.report name .constantFieldModified).Misses P s' := by
  cases h with
  | mk h =>
      apply Misses.mk (s := s.report name .constantFieldModified)
      unfold Scoping.report
      have hmissing := h.append (.drop hname .nil)
      rwa [List.append_nil, ← Array.toList_push] at hmissing

theorem declare (h : s.Misses P s') (token : Token) (name : String) :
    (s.declare token name).Misses P (s'.declare token name) := by
  have hreport := h.report token
  obtain ⟨_ | ⟨inner, outer⟩, globals, globalConstants⟩ := s
  · cases h with
    | mk h =>
        unfold Scoping.declare
        by_cases hc : name ∈ globalConstants
        · simp only [hc, if_true]
          exact hreport _
        · simp only [hc, if_false]
          exact .mk h
  · cases h with
    | mk h =>
        unfold Scoping.declare
        by_cases hc : inner.names.contains name = true
        · simp only [hc, if_true]
          cases hreport .variableRedeclared with
          | mk h => exact .mk h
        · simp only [hc]
          exact .mk h

theorem define (h : s.Misses P s') (name : String) :
    (s.define name).Misses P (s'.define name) := by
  obtain ⟨_ | ⟨inner, outer⟩⟩ := s <;> cases h with | mk h => exact .mk h

theorem setMutability (h : s.Misses P s') (name : String) (mutability : Mutability) :
    (s.setMutability name mutability).Misses P (s'.setMutability name mutability) := by
  obtain ⟨_ | ⟨inner, outer⟩⟩ := s <;> cases h with | mk h => exact .mk h

end Scoping.Misses

/-! ### Computations -/

namespace Resolve
variable {P : Token → Prop} {α β γ δ : Type} {R : α → β → Prop} {S : γ → δ → Prop}

/-- Related outcomes, unless the second resolution stopped. -/
inductive MatchingEnds (P : Token → Prop) (R : α → β → Prop) :
    EStateM.Result Unit Scoping α → EStateM.Result Unit Scoping β → Prop
  | ok {a : α} {b : β} {s s' : Scoping} : R a b → s.Misses P s' →
      MatchingEnds P R (.ok a s) (.ok b s')
  | deep (r : EStateM.Result Unit Scoping α) (e : Unit) (s' : Scoping) :
      MatchingEnds P R r (.error e s')

/-- Computations that do the same, unless the second one stops. -/
def Matching (P : Token → Prop) (R : α → β → Prop) (p : Resolve α) (q : Resolve β) : Prop :=
  ∀ s s', s.Misses P s' → MatchingEnds P R (p s) (q s')

namespace Matching

theorem pure {a : α} {b : β} (h : R a b) :
    Matching P R (Pure.pure a : Resolve α) (Pure.pure b : Resolve β) := fun _ _ hs => .ok h hs

theorem throw (p : Resolve α) (e : Unit) :
    Matching P R p (MonadExcept.throw e : Resolve β) := fun _ s' _ => .deep _ e s'

theorem bind {p : Resolve α} {q : Resolve β} {f : α → Resolve γ} {g : β → Resolve δ}
    (hp : Matching P R p q) (hf : ∀ a b, R a b → Matching P S (f a) (g b)) :
    Matching P S (p >>= f) (q >>= g) := by
  intro s s' hs
  have hpq := hp s s' hs
  change MatchingEnds P S (EStateM.bind p f s) (EStateM.bind q g s')
  unfold EStateM.bind
  generalize p s = r at hpq
  generalize q s' = r' at hpq
  cases hpq with
  | ok hab ht => exact hf _ _ hab _ _ ht
  | deep r e t => exact .deep _ e t

theorem map {p : Resolve α} {q : Resolve β} {f : α → γ} {g : β → δ} (h : Matching P R p q)
    (hf : ∀ a b, R a b → S (f a) (g b)) : Matching P S (f <$> p) (g <$> q) :=
  h.bind fun a b hab => .pure (hf a b hab)

/-- What depends on the state, but in the same way. -/
theorem looking {f : Scoping → Resolve α} {g : Scoping → Resolve β}
    (h : ∀ s s', s.Misses P s' → Matching P R (f s) (g s')) :
    Matching P R (get >>= f) (get >>= g) := fun s s' hs => h s s' hs s s' hs

theorem modify {f g : Scoping → Scoping} (h : ∀ s s', s.Misses P s' → (f s).Misses P (g s')) :
    Matching P Eq (modify f : Resolve Unit) (modify g : Resolve Unit) :=
  fun s s' hs => .ok rfl (h s s' hs)

theorem mapM {f : α → Resolve γ} {g : β → Resolve δ} {as : List α} {bs : List β}
    (has : List.Forall₂ R as bs) (h : ∀ a b, R a b → Matching P S (f a) (g b)) :
    Matching P (List.Forall₂ S) (as.mapM f) (bs.mapM g) := by
  induction has with
  | nil =>
      rw [List.mapM_nil, List.mapM_nil]
      exact .pure .nil
  | cons hab _ ih =>
      rw [List.mapM_cons, List.mapM_cons]
      exact (h _ _ hab).bind fun c d hcd => ih.bind fun cs ds hcds => .pure (.cons hcd hcds)

theorem optional {f : α → Resolve γ} {g : β → Resolve δ} {a : Option α} {b : Option β}
    (hab : Option.Rel R a b) (h : ∀ a b, R a b → Matching P S (f a) (g b)) :
    Matching P (Option.Rel S) (a.mapM f) (b.mapM g) := by
  cases hab with
  | none => exact .pure .none
  | some hab => exact (h _ _ hab).map fun _ _ hcd => .some hcd

/-- What is done with each of a list. -/
theorem forM {f : γ → Resolve Unit} (h : ∀ a, Matching P Eq (f a) (f a)) (as : List γ) :
    Matching P Eq (as.forM f) (as.forM f) := by
  induction as with
  | nil => exact .pure rfl
  | cons a as ih => exact (h a).bind fun _ _ _ => ih

theorem report (token : Token) (error : StaticError) :
    Matching P Eq (Resolve.report token error) (Resolve.report token error) :=
  .modify fun _ _ hs => hs.report token error

theorem bindName (token : Token) (name : String) :
    Matching P Eq (Resolve.bind token name) (Resolve.bind token name) :=
  .modify fun _ _ hs => (hs.declare token name).define name

/-- A report that depends on the state. -/
theorem checking {c : Scoping → Prop} [DecidablePred c] {token : Token} {error : StaticError}
    (hc : ∀ s s', s.Misses P s' → (c s' ↔ c s)) {p : Resolve α} {q : Resolve β}
    (h : Matching P R p q) :
    Matching P R (get >>= fun s => if c s then Resolve.report token error >>= fun _ => p else p)
      (get >>= fun s => if c s then Resolve.report token error >>= fun _ => q else q) := by
  refine .looking fun s s' hs => ?_
  by_cases hs' : c s
  · simp only [(hc s s' hs).mpr hs', hs', if_true]
    exact (report token error).bind fun _ _ _ => h
  · simp only [mt (hc s s' hs).mp hs', hs', if_false]
    exact h

/-! ### Uses of names -/

theorem record (form : UseForm) (use : NameUse) (hops : Nat) :
    Matching P Eq (Resolve.record form use hops) (Resolve.record form use hops) := by
  refine Matching.bind (R := Eq) (.modify fun s s' hs => ?_) fun _ _ _ => .pure rfl
  cases hs with
  | mk hs => exact .mk hs

theorem lookUp (form : UseForm) (use : NameUse) :
    Matching P Eq (Resolve.lookUp form use) (Resolve.lookUp form use) := by
  refine .looking fun s s' hs => ?_
  cases hs with
  | mk hs =>
      dsimp only
      cases Scoping.hops? use.name.lexeme s.scopes with
      | some hops => exact .record form use hops
      | none => exact .pure rfl

theorem readOuter (use : NameUse) (outer : List StaticScope) :
    Matching P Eq (Resolve.readOuter use outer) (Resolve.readOuter use outer) := by
  unfold Resolve.readOuter
  dsimp only
  cases Scoping.hops? use.name.lexeme outer with
  | some hops => exact .record .read use (hops + 1)
  | none =>
      refine .looking fun s s' hs => ?_
      have hglobals : s'.globals = s.globals := by
        cases hs
        rfl
      rw [hglobals]
      by_cases h : use.name.lexeme ∈ s.globals
      · simp only [h, if_true]
        exact Matching.bind (R := Eq) (.modify fun _ _ hs => hs.push _) fun _ _ _ => .pure rfl
      · simp only [h, if_false]
        exact (report _ _).bind fun _ _ _ => .pure rfl

theorem read (use : NameUse) : Matching P Eq (Resolve.read use) (Resolve.read use) := by
  refine .looking fun s s' hs => ?_
  cases hs with
  | mk hs =>
      dsimp only
      cases s.scopes with
      | nil =>
          dsimp only
          by_cases h : use.name.lexeme ∈ s.initializing ∧ use.name.lexeme ∉ s.globals
          · rw [if_pos h]
            exact (report _ _).bind fun _ _ _ => .pure rfl
          · rw [if_neg h]
            exact .pure rfl
      | cons inner outer =>
          dsimp only
          by_cases h : inner.names.find? use.name.lexeme = some false
          · rw [if_pos h]
            exact readOuter use outer
          · rw [if_neg h]
            exact lookUp .read use

/-! ### Checks -/

theorem checkSuper (keyword : Token) :
    Matching P Eq (Resolve.checkSuper keyword) (Resolve.checkSuper keyword) := by
  refine .looking fun s s' hs => ?_
  have hcontext : s'.classContext = s.classContext := by
    cases hs
    rfl
  rw [hcontext]
  cases s.classContext with
  | none => exact report _ _
  | root => exact report _ _
  | derived => exact .pure rfl

/-- Parentheses around the bare name of an object keep the check from seeing it. -/
theorem checkFieldWrite {object object' : Expr} {name : Token} (h : object.Grouped P object')
    (hname : object.isName = true → object'.isName = true ∨ P name) :
    Matching P Eq (Resolve.checkFieldWrite object name) (Resolve.checkFieldWrite object' name) := by
  by_cases hsame : object'.isName = true
  · obtain rfl := h.eq_of_isName hsame
    cases object' with
    | name use =>
        unfold Resolve.checkFieldWrite
        refine .looking fun s s' hs => ?_
        have hconstant : s'.isConstant use.name.lexeme = s.isConstant use.name.lexeme := by
          cases hs
          rfl
        rw [hconstant]
        by_cases hc : s.isConstant use.name.lexeme = true
        · simp only [hc, if_true]
          exact report _ _
        · simp only [hc]
          exact .pure rfl
    | _ => exact .pure rfl
  · have hnone : Resolve.checkFieldWrite object' name = Pure.pure () := by
      cases object' with
      | name use => exact (hsame rfl).elim
      | _ => rfl
    rw [hnone]
    cases object with
    | name use =>
        intro s s' hs
        have hP := (hname rfl).resolve_left hsame
        change MatchingEnds P Eq ((if s.isConstant use.name.lexeme = true then
          Resolve.report name .constantFieldModified else Pure.pure ()) s) (.ok () s')
        by_cases hc : s.isConstant use.name.lexeme = true
        · rw [if_pos hc]
          exact .ok rfl (hs.unreported hP)
        · rw [if_neg hc]
          exact .ok rfl hs
    | _ => exact .pure rfl

end Matching

/-! ### Scopes, functions, loops and classes -/

/-- What stands between a change of the surroundings and the change back. -/
theorem matching_around {p : Resolve α} {q : Resolve β} (h : Matching P R p q)
    (enter : Scoping → Scoping) (leave : Scoping → Scoping → Scoping)
    (henter : ∀ {s s'}, s.Misses P s' → (enter s).Misses P (enter s'))
    (hleave : ∀ {s s' t t'}, s.Misses P s' → t.Misses P t' →
      (leave s t).Misses P (leave s' t')) :
    Matching P R (do
      let before ← get
      modify enter
      let a ← p
      modify (leave before)
      return a) (do
      let before ← get
      modify enter
      let b ← q
      modify (leave before)
      return b) := by
  refine .looking fun before before' hbefore => ?_
  refine Matching.bind (R := Eq) (.modify fun _ _ hs => henter hs) fun _ _ _ => h.bind fun a b hab => ?_
  exact Matching.bind (R := Eq) (.modify fun _ _ hs => hleave hbefore hs) fun _ _ _ => .pure hab

namespace Matching

section
variable {p : Resolve α} {q : Resolve β} (h : Matching P R p q)
include h

theorem inScope (names : List String) :
    Matching P R (Resolve.inScope names p) (Resolve.inScope names q) := by
  refine matching_around h (fun s => s.enter names) (fun _ => Scoping.leave) (fun hs => ?_) fun _ ht => ?_
  · cases hs with
    | mk hs => exact .mk hs
  · cases ht with
    | mk ht => exact .mk ht

theorem inFunction (context : FunctionContext) :
    Matching P R (Resolve.inFunction context p) (Resolve.inFunction context q) := by
  refine matching_around h _ _ (fun hs => ?_) fun hs ht => ?_
  · cases hs with
    | mk hs => exact .mk hs
  · cases hs
    cases ht with
    | mk ht => exact .mk ht

theorem inLoop : Matching P R (Resolve.inLoop p) (Resolve.inLoop q) := by
  refine matching_around h _ _ (fun hs => ?_) fun hs ht => ?_
  · cases hs with
    | mk hs => exact .mk hs
  · cases hs
    cases ht with
    | mk ht => exact .mk ht

theorem inClass (context : ClassContext) :
    Matching P R (Resolve.inClass context p) (Resolve.inClass context q) := by
  refine matching_around h _ _ (fun hs => ?_) fun hs ht => ?_
  · cases hs with
    | mk hs => exact .mk hs
  · cases hs
    cases ht with
    | mk ht => exact .mk ht

theorem initializing (name : String) :
    Matching P R (Resolve.initializing name p) (Resolve.initializing name q) := by
  rw [Visiting.initializing_eq, Visiting.initializing_eq]
  refine .looking fun _ _ _ => ?_
  refine Matching.bind (R := Eq) (.modify fun s s' hs => ?_) fun _ _ _ => h.bind fun a b hab =>
    Matching.bind (R := Eq) (.modify fun s s' hs => ?_) fun _ _ _ => .pure hab
  · cases hs with
    | mk hs =>
        by_cases hempty : s.scopes.isEmpty = true
        · simp only [hempty, if_true]
          exact .mk hs
        · simp only [hempty]
          exact .mk hs
  · cases hs with
    | mk hs => exact .mk hs

end
end Matching

/-! ### Trees -/

/-- Resolved trees differ in parentheses, which may stand anywhere. -/
abbrev Anywhere : Token → Prop := fun _ => True

/-- Name resolution of a tree with `n` levels, and of one with parentheses with `m` levels. -/
structure LevelMatching (P : Token → Prop) (n m : Nat) : Prop where
  expression : ∀ {e e'}, Expr.Grouped P e e' →
    Matching P (Expr.Grouped Anywhere) (expression n e) (expression m e')
  statement : ∀ {s s'}, Stmt.Grouped P s s' →
    Matching P (Stmt.Grouped Anywhere) (statement n s) (statement m s')
  method : ∀ {d d'}, FunctionDecl.Grouped P d d' →
    Matching P (FunctionDecl.Grouped Anywhere) (method n d) (method m d')
  functionBody : ∀ context {d d'}, FunctionDecl.Grouped P d d' →
    Matching P (FunctionDecl.Grouped Anywhere) (functionBody n context d) (functionBody m context d')

namespace LevelMatching
variable {n m : Nat}

/-- Parentheses take a level in the second tree only. -/
theorem expression_succ (ih : ∀ {n}, m ≤ n → LevelMatching P n m) (hle : m ≤ n) {e e' : Expr}
    (h : e.Grouped P e') :
    Matching P (Expr.Grouped Anywhere) (Resolve.expression (n + 1) e)
      (Resolve.expression (m + 1) e') := by
  have hm := ih hle
  cases h with
  | @parens _ inner h =>
      have hinner := (ih (Nat.le_succ_of_le hle)).expression h
      have hparens : Resolve.expression (m + 1) (.grouping inner) =
          Expr.grouping <$> Resolve.expression m inner := rfl
      rw [hparens, ← id_map (Resolve.expression (n + 1) e)]
      exact hinner.map fun _ _ hab => .parens hab
  | literal value => exact .pure (.literal value)
  | grouping h =>
      unfold Resolve.expression
      exact (hm.expression h).bind fun _ _ hab => .pure (.grouping hab)
  | name use =>
      unfold Resolve.expression
      refine (Matching.read use).bind fun u u' hu => .pure ?_
      rw [hu]
      exact .name u'
  | @assign use _ _ h =>
      unfold Resolve.expression
      refine (hm.expression h).bind fun a b hab => Matching.checking (fun s s' hs => ?_) ?_
      · cases hs
        exact Iff.rfl
      · refine (Matching.lookUp .assign use).bind fun u u' hu => .pure ?_
        rw [hu]
        exact .assign hab
  | unary h =>
      unfold Resolve.expression
      exact (hm.expression h).bind fun _ _ hab => .pure (.unary hab)
  | binary ha hb =>
      unfold Resolve.expression
      exact (hm.expression ha).bind fun _ _ ha => (hm.expression hb).bind fun _ _ hb =>
        .pure (.binary ha hb)
  | logical ha hb =>
      unfold Resolve.expression
      exact (hm.expression ha).bind fun _ _ ha => (hm.expression hb).bind fun _ _ hb =>
        .pure (.logical ha hb)
  | call hcallee hes =>
      unfold Resolve.expression
      refine (hm.expression hcallee).bind fun _ _ hcallee => ?_
      exact (Matching.mapM hes fun _ _ he => hm.expression he).bind fun _ _ hes =>
        .pure (.call hcallee hes)
  | get h =>
      unfold Resolve.expression
      exact (hm.expression h).bind fun _ _ hab => .pure (.get hab)
  | set hname ha hb =>
      unfold Resolve.expression
      refine (hm.expression hb).bind fun _ _ hb => ?_
      refine (Matching.checkFieldWrite ha hname).bind fun _ _ _ => ?_
      exact (hm.expression ha).bind fun _ _ ha => .pure (.set (fun _ => .inr trivial) ha hb)
  | this use =>
      unfold Resolve.expression
      refine .looking fun s s' hs => ?_
      have hcontext : s'.classContext = s.classContext := by
        cases hs
        rfl
      rw [hcontext]
      by_cases hnone : s.classContext = .none
      · rw [if_pos hnone]
        exact (Matching.report _ _).bind fun _ _ _ => .pure (.this use)
      · rw [if_neg hnone]
        refine (Matching.lookUp .this use).bind fun u u' hu => .pure ?_
        rw [hu]
        exact .this u'
  | super use method =>
      unfold Resolve.expression
      refine (Matching.checkSuper use.name).bind fun _ _ _ => ?_
      refine (Matching.lookUp .super use).bind fun u u' hu => .pure ?_
      rw [hu]
      exact .super u' method
  | lambda h =>
      unfold Resolve.expression
      exact (hm.functionBody .lambda h).bind fun _ _ hd => .pure (.lambda hd)

theorem statement_succ (ih : LevelMatching P n m) {s s' : Stmt} (h : s.Grouped P s') :
    Matching P (Stmt.Grouped Anywhere) (Resolve.statement (n + 1) s)
      (Resolve.statement (m + 1) s') := by
  unfold Resolve.statement
  cases h with
  | expression h => exact (ih.expression h).bind fun _ _ hab => .pure (.expression hab)
  | print h => exact (ih.expression h).bind fun _ _ hab => .pure (.print hab)
  | @var mutability name _ _ h =>
      refine Matching.bind (R := Eq) (.modify fun s s' hs => hs.declare name _) fun _ _ _ => ?_
      refine (Matching.optional h fun _ _ he => (ih.expression he).initializing _).bind
        fun _ _ h => ?_
      exact Matching.bind (R := Eq) (.modify fun s s' hs => (hs.define _).setMutability _ mutability)
        fun _ _ _ => .pure (.var h)
  | block h =>
      exact (Matching.mapM h fun _ _ hs => ih.statement hs).inScope [] |>.bind fun _ _ h =>
        .pure (.block h)
  | «if» hc hs ht =>
      refine (ih.expression hc).bind fun _ _ hc => (ih.statement hs).bind fun _ _ hs => ?_
      exact (Matching.optional ht fun _ _ hs => ih.statement hs).bind fun _ _ ht =>
        .pure (.if hc hs ht)
  | «while» hc hs he =>
      refine Matching.inLoop ((ih.expression hc).bind fun _ _ hc => ?_)
      refine (ih.statement hs).bind fun _ _ hs => ?_
      exact (Matching.optional he fun _ _ he => ih.expression he).bind fun _ _ he =>
        .pure (.while hc hs he)
  | «break» keyword =>
      refine Matching.checking (fun s s' hs => ?_) (.pure (.break keyword))
      cases hs
      exact Iff.rfl
  | «continue» keyword =>
      refine Matching.checking (fun s s' hs => ?_) (.pure (.continue keyword))
      cases hs
      exact Iff.rfl
  | @«return» keyword e e' h =>
      have hsome : e'.isSome = e.isSome := by cases h <;> rfl
      have hvalue := (Matching.optional h fun _ _ he => ih.expression he).bind
        (S := Stmt.Grouped Anywhere) (f := fun v => Pure.pure (.return keyword v))
        (g := fun v => Pure.pure (.return keyword v)) fun _ _ h => .pure (.return h)
      dsimp only
      rw [hsome]
      refine Matching.bind (R := Eq) (.looking fun s s' hs => ?_) fun _ _ _ =>
        Matching.checking (fun s s' hs => ?_) hvalue
      · have hfunction : s'.function = s.function := by
          cases hs
          rfl
        rw [hfunction]
        by_cases hf : s.function = .none
        · rw [if_pos hf]
          exact Matching.report _ _
        · rw [if_neg hf]
          exact .pure rfl
      · cases hs
        exact Iff.rfl
  | @function d d' h =>
      have hbody := (ih.functionBody .function h).bind (S := Stmt.Grouped Anywhere)
        (f := fun d => Pure.pure (.function d)) (g := fun d => Pure.pure (.function d))
        fun _ _ hd => .pure (.function hd)
      dsimp only
      rw [h.name]
      cases d.name with
      | none => exact hbody
      | some name => exact (Matching.bindName name _).bind fun _ _ _ => hbody
  | @«class» name superclass _ _ h =>
      have hmethods := (Matching.mapM h fun _ _ hd => ih.method hd).inScope ["this"]
      cases superclass with
      | none =>
          refine Matching.inClass ((Matching.bindName name _).bind fun _ _ _ => ?_) _
          exact hmethods.bind fun _ _ h => .pure (.class h)
      | some use =>
          refine Matching.inClass ((Matching.bindName name _).bind fun _ _ _ => ?_) _
          have hrest := (Matching.read (P := P) use).bind (S := Stmt.Grouped Anywhere)
            (f := fun superclass => inScope ["super"] _ >>= fun methods =>
              Pure.pure (.class name (some superclass) methods))
            (g := fun superclass => inScope ["super"] _ >>= fun methods =>
              Pure.pure (.class name (some superclass) methods)) fun u u' hu => by
            rw [hu]
            exact (hmethods.inScope ["super"]).bind fun _ _ h => .pure (.class h)
          by_cases hself : use.name.lexeme = name.lexeme
          · simp only [hself, if_true]
            exact (Matching.report _ _).bind fun _ _ _ => hrest
          · simp only [hself, if_false]
            exact hrest
  | importModule keyword name as =>
      dsimp only
      cases importNameError? (importedModule name) as.isSome with
      | some error =>
          exact (Matching.report _ _).bind fun _ _ _ => .pure (.importModule keyword name as)
      | none => exact (Matching.bindName _ _).bind fun _ _ _ => .pure (.importModule keyword name as)

theorem functionBody_succ (ih : LevelMatching P n m) (context : FunctionContext)
    {d d' : FunctionDecl} (h : d.Grouped P d') :
    Matching P (FunctionDecl.Grouped Anywhere) (Resolve.functionBody (n + 1) context d)
      (Resolve.functionBody (m + 1) context d') := by
  cases h with
  | @mk name parameters _ _ h =>
      refine Matching.inFunction (Matching.inScope ?_ []) context
      refine (Matching.forM (fun p => Matching.bindName p _) parameters).bind fun _ _ _ => ?_
      exact (Matching.mapM h fun _ _ hs => ih.statement hs).bind fun _ _ h => .pure (.mk h)

end LevelMatching

/-- A tree with parentheses is resolved alike with at most as many levels, by induction on these:
inside parentheses there is one less of them, while the first tree has lost none. -/
theorem levelMatching (P : Token → Prop) {n m : Nat} (h : m ≤ n) : LevelMatching P n m := by
  induction m generalizing n with
  | zero =>
      constructor
      case functionBody => exact fun _ _ _ _ => .throw _ ()
      all_goals exact fun _ => .throw _ ()
  | succ m ih =>
      cases n with
      | zero => exact absurd h (Nat.not_succ_le_zero m)
      | succ n =>
          have hle := Nat.le_of_succ_le_succ h
          constructor
          case expression => exact LevelMatching.expression_succ ih hle
          case statement => exact (ih hle).statement_succ
          case functionBody => exact (ih hle).functionBody_succ
          case method =>
            intro d d' hd
            have hcontext : methodContext d' = methodContext d := by
              unfold methodContext
              rw [hd.name]
            unfold Resolve.method
            rw [hcontext]
            exact (ih hle).functionBody _ hd

end Resolve
end Treewalk
