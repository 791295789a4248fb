import Treewalk.Proofs.Control.Legal
import Treewalk.Proofs.Twins.Moved

/-!
# Resolving the same code elsewhere

Name resolution does the same for code some lines further down, in a state that knows at least the
same globals: it reports no more errors there. What surrounds a construct is restored behind it.
-/
namespace Treewalk

namespace Scoping

/-- The same state, but that more globals may be known and fewer errors reported. -/
structure Covers (s s' : Scoping) : Prop where
  scopes : s'.scopes = s.scopes
  globals : s.globals ⊆ s'.globals
  constants : s'.globalConstants = s.globalConstants
  initializing : s'.initializing = s.initializing
  function : s'.function = s.function
  classContext : s'.classContext = s.classContext
  inLoop : s'.inLoop = s.inLoop
  errors : countErrors s'.notices.toList ≤ countErrors s.notices.toList

/-- What a construct leaves as it was, or has more of. -/
structure Restored (s t : Scoping) : Prop where
  depth : t.scopes.length = s.scopes.length
  globals : s.globals ⊆ t.globals
  initializing : t.initializing ⊆ s.initializing
  function : t.function = s.function
  classContext : t.classContext = s.classContext
  inLoop : t.inLoop = s.inLoop

theorem Covers.refl (s : Scoping) : s.Covers s :=
  ⟨rfl, fun _ hx => hx, rfl, rfl, rfl, rfl, rfl, Nat.le_refl _⟩

theorem Restored.refl (s : Scoping) : s.Restored s :=
  ⟨rfl, fun _ h => h, fun _ h => h, rfl, rfl, rfl⟩

theorem Restored.trans {s t u : Scoping} (h : s.Restored t) (h' : t.Restored u) : s.Restored u where
  depth := h'.depth.trans h.depth
  globals := fun _ hx => h'.globals (h.globals hx)
  initializing := fun _ hx => h.initializing (h'.initializing hx)
  function := h'.function.trans h.function
  classContext := h'.classContext.trans h.classContext
  inLoop := h'.inLoop.trans h.inLoop

theorem Restored.scopes_nil {s t : Scoping} (h : s.Restored t) (hs : s.scopes = []) :
    t.scopes = [] := by
  rw [← List.length_eq_zero_iff, h.depth, hs]
  rfl

theorem countErrors_push_error (notices : Array Notice) (d : Diagnostic) :
    countErrors (notices.push (.error d)).toList = countErrors notices.toList + 1 := by
  rw [Array.toList_push, countErrors_append, countErrors_error, countErrors_nil]

theorem countErrors_push_log (notices : Array Notice) (l : LogLine) :
    countErrors (notices.push (.log l)).toList = countErrors notices.toList := by
  rw [Array.toList_push, countErrors_append, countErrors_log, countErrors_nil, Nat.add_zero]

section
variable {s s' : Scoping} (h : s.Covers s') (n : Nat)
include h

theorem Covers.clean (hc : s.Clean) : s'.Clean := Nat.le_zero.mp (hc ▸ h.errors)

theorem Covers.isConstant (name : String) : s'.isConstant name = s.isConstant name := by
  unfold Scoping.isConstant
  rw [h.scopes, h.constants]

theorem Covers.report (token : Token) (error : StaticError) :
    (s.report token error).Covers (s'.report (token.down n) error) := by
  have herrors : countErrors (s'.report (token.down n) error).notices.toList ≤
      countErrors (s.report token error).notices.toList := by
    unfold Scoping.report
    rw [countErrors_push_error, countErrors_push_error]
    exact Nat.succ_le_succ h.errors
  exact { h with errors := herrors }

theorem Covers.declare (token : Token) (name : String) :
    (s.declare token name).Covers (s'.declare (token.down n) name) := by
  unfold Scoping.declare
  rw [h.scopes, h.constants]
  cases s.scopes with
  | nil =>
      by_cases hname : name ∈ s.globalConstants
      · simp only [hname, if_true]
        exact h.report n token _
      · simp only [hname, if_false]
        exact h
  | cons inner outer =>
      by_cases hname : inner.names.contains name = true
      · simp only [hname, if_true]
        exact { h.report n token .variableRedeclared with scopes := rfl }
      · simp only [hname]
        exact { h with scopes := rfl }

theorem Covers.define (name : String) : (s.define name).Covers (s'.define name) := by
  unfold Scoping.define
  rw [h.scopes]
  cases s.scopes with
  | nil =>
      refine { h with scopes := rfl, globals := fun x hx => ?_ }
      rcases List.mem_insert_iff.mp hx with rfl | hx
      · exact List.mem_insert_self
      · exact List.mem_insert_of_mem (h.globals hx)
  | cons inner outer => exact { h with scopes := rfl }

theorem Covers.setMutability (name : String) (mutability : Mutability) :
    (s.setMutability name mutability).Covers (s'.setMutability name mutability) := by
  unfold Scoping.setMutability
  dsimp only
  rw [h.scopes]
  cases s.scopes with
  | nil =>
      refine { h with scopes := rfl, constants := ?_ }
      dsimp only
      rw [h.constants]
  | cons inner outer => exact { h with scopes := rfl }

theorem Covers.enter (names : List String) : (s.enter names).Covers (s'.enter names) :=
  { h with scopes := congrArg (_ :: ·) h.scopes }

theorem Covers.leave : s.leave.Covers s'.leave :=
  { h with scopes := congrArg List.tail h.scopes }

end

section
variable (s : Scoping)

theorem mem_globals_define {s : Scoping} (hs : s.scopes = []) (name : String) :
    name ∈ (s.define name).globals := by
  unfold define
  rw [hs]
  exact List.mem_insert_self

theorem globals_setMutability (name : String) (mutability : Mutability) :
    (s.setMutability name mutability).globals = s.globals := by
  unfold setMutability
  dsimp only
  split <;> rfl

theorem restored_report (token : Token) (error : StaticError) :
    s.Restored (s.report token error) := { Restored.refl s with }

theorem restored_declare (token : Token) (name : String) : s.Restored (s.declare token name) := by
  unfold Scoping.declare
  cases hs : s.scopes with
  | nil =>
      dsimp only
      split
      · exact s.restored_report _ _
      · exact .refl s
  | cons inner outer =>
      dsimp only
      split <;> exact { Restored.refl s with depth := (congrArg List.length hs).symm }

theorem restored_define (name : String) : s.Restored (s.define name) := by
  unfold Scoping.define
  cases hs : s.scopes with
  | nil =>
      exact { Restored.refl s with
        depth := (congrArg List.length hs).symm
        globals := fun _ hx => List.mem_insert_of_mem hx }
  | cons inner outer => exact { Restored.refl s with depth := (congrArg List.length hs).symm }

theorem restored_setMutability (name : String) (mutability : Mutability) :
    s.Restored (s.setMutability name mutability) := by
  unfold Scoping.setMutability
  cases hs : s.scopes with
  | nil => exact { Restored.refl s with depth := (congrArg List.length hs).symm }
  | cons inner outer => exact { Restored.refl s with depth := (congrArg List.length hs).symm }

end

end Scoping

namespace Resolve
open Scoping
variable {α β γ δ : Type}

/-- Two resolutions end alike, the first of which begins in `s`. -/
inductive Alike (R : α → β → Prop) (s : Scoping) :
    EStateM.Result Unit Scoping α → EStateM.Result Unit Scoping β → Prop
  | ok {a : α} {b : β} {t t' : Scoping} : R a b → t.Covers t' → s.Restored t →
      Alike R s (.ok a t) (.ok b t')
  | error {e e' : Unit} {t t' : Scoping} : Alike R s (.error e t) (.error e' t')

/-- In a state that covers another one the second resolution does what the first one does there. -/
def Resembles (R : α → β → Prop) (p : Resolve α) (q : Resolve β) : Prop :=
  ∀ s s', s.Covers s' → Alike R s (p s) (q s')

namespace Resembles
variable {R : α → β → Prop} {S : γ → δ → Prop}

theorem pure {a : α} {b : β} (h : R a b) : Resembles R (Pure.pure a) (Pure.pure b) :=
  fun s _ hs => .ok h hs (.refl s)

theorem throw (e e' : Unit) :
    Resembles R (MonadExcept.throw e : Resolve α) (MonadExcept.throw e' : Resolve β) :=
  fun _ _ _ => .error

theorem bind {p : Resolve α} {q : Resolve β} {f : α → Resolve γ} {g : β → Resolve δ}
    (hp : Resembles R p q) (hf : ∀ a b, R a b → Resembles S (f a) (g b)) :
    Resembles S (p >>= f) (q >>= g) := by
  intro s s' hs
  have hpq := hp s s' hs
  change Alike S s (EStateM.bind p f s) (EStateM.bind q g s')
  unfold EStateM.bind
  generalize p s = r at hpq
  generalize q s' = r' at hpq
  cases hpq with
  | error => exact .error
  | @ok a b t t' hab ht hst =>
      have hfg := hf a b hab t t' ht
      dsimp only
      generalize f a t = r at hfg
      generalize g b t' = r' at hfg
      cases hfg with
      | error => exact .error
      | ok hcd hu htu => exact .ok hcd hu (hst.trans htu)

theorem weaken {R' : α → β → Prop} {p : Resolve α} {q : Resolve β} (h : Resembles R p q)
    (hR : ∀ a b, R a b → R' a b) : Resembles R' p q := by
  intro s s' hs
  have hpq := h s s' hs
  generalize p s = r at hpq
  generalize q s' = r' at hpq
  cases hpq with
  | error => exact .error
  | ok hab ht hst => exact .ok (hR _ _ hab) ht hst

theorem getting {f : Scoping → Resolve α} {g : Scoping → Resolve β}
    (h : ∀ s s' : Scoping, s.Covers s' → Resembles R (f s) (g s')) :
    Resembles R (get >>= f) (get >>= g) := fun s s' hs => h s s' hs s s' hs

theorem step {f g : Scoping → Scoping} (h : ∀ s s' : Scoping, s.Covers s' → (f s).Covers (g s'))
    (hf : ∀ s : Scoping, s.Restored (f s)) : Resembles Eq (modify f) (modify g) :=
  fun s s' hs => .ok rfl (h s s' hs) (hf s)

/-- What stands between a change of the surroundings and the change back. -/
theorem around (enter : Scoping → Scoping) (leave : Scoping → Scoping → Scoping) {p : Resolve α}
    {q : Resolve β} (h : Resembles R p q)
    (henter : ∀ s s' : Scoping, s.Covers s' → (enter s).Covers (enter s'))
    (hleave : ∀ s s' t t' : Scoping, s.Covers s' → t.Covers t' → (leave s t).Covers (leave s' t'))
    (hback : ∀ s t, (enter s).Restored t → s.Restored (leave s t)) :
    Resembles R (do
      let before ← get
      modify enter
      let a ← p
      modify (leave before)
      return a) (do
      let before ← get
      modify enter
      let b ← q
      modify (leave before)
      return b) := by
  intro s s' hs
  have hpq := h _ _ (henter s s' hs)
  change Alike R s (EStateM.bind p _ (enter s)) (EStateM.bind q _ (enter s'))
  unfold EStateM.bind
  generalize p (enter s) = r at hpq
  generalize q (enter s') = r' at hpq
  cases hpq with
  | error => exact .error
  | ok hab ht hst => exact .ok hab (hleave _ _ _ _ hs ht) (hback _ _ hst)

theorem inScope {names : List String} {p : Resolve α} {q : Resolve β} (h : Resembles R p q) :
    Resembles R (Resolve.inScope names p) (Resolve.inScope names q) := by
  refine around (fun s => s.enter names) (fun _ t => t.leave) h
    (fun _ _ hs => hs.enter names) (fun _ _ _ _ _ ht => ht.leave) fun s t ht => ?_
  refine { ht with depth := ?_ }
  have hdepth := ht.depth
  unfold Scoping.leave Scoping.enter at *
  rw [List.length_tail, hdepth]
  rfl

theorem inFunction {context : FunctionContext} {p : Resolve α} {q : Resolve β}
    (h : Resembles R p q) :
    Resembles R (Resolve.inFunction context p) (Resolve.inFunction context q) :=
  around _ _ h (fun _ _ hs => { hs with function := rfl, inLoop := rfl })
    (fun _ _ _ _ hs ht => { ht with function := hs.function, inLoop := hs.inLoop })
    fun _ _ ht => { ht with function := rfl, inLoop := rfl }

theorem inLoop {p : Resolve α} {q : Resolve β} (h : Resembles R p q) :
    Resembles R (Resolve.inLoop p) (Resolve.inLoop q) :=
  around _ _ h (fun _ _ hs => { hs with inLoop := rfl })
    (fun _ _ _ _ hs ht => { ht with inLoop := hs.inLoop })
    fun _ _ ht => { ht with inLoop := rfl }

theorem inClass {context : ClassContext} {p : Resolve α} {q : Resolve β} (h : Resembles R p q) :
    Resembles R (Resolve.inClass context p) (Resolve.inClass context q) :=
  around _ _ h (fun _ _ hs => { hs with classContext := rfl })
    (fun _ _ _ _ hs ht => { ht with classContext := hs.classContext })
    fun _ _ ht => { ht with classContext := rfl }

theorem initializing {name : String} {p : Resolve α} {q : Resolve β} (h : Resembles R p q) :
    Resembles R (Resolve.initializing name p) (Resolve.initializing name q) := by
  rw [Visiting.initializing_eq, Visiting.initializing_eq]
  refine around _ _ h (fun s s' hs => ?_) (fun _ _ _ _ _ ht => ?_) fun s t ht => ?_
  · rw [hs.scopes]
    split
    · exact { hs with scopes := rfl, initializing := congrArg (List.insert name) hs.initializing }
    · exact hs
  · exact { ht with initializing := congrArg (List.filter _) ht.initializing }
  · have hwithout : ∀ x ∈ t.initializing.filter (· ≠ name), x ∈ s.initializing := by
      intro x hx
      obtain ⟨hx, hne⟩ := List.mem_filter.mp hx
      have hx := ht.initializing hx
      split at hx
      · exact (List.mem_insert_iff.mp hx).resolve_left (by simpa using hne)
      · exact hx
    split at ht <;> exact { ht with initializing := hwithout }

theorem mapM {f : α → Resolve γ} {g : β → Resolve δ} {as : List α} {bs : List β}
    (has : List.Forall₂ R as bs) (h : ∀ a b, R a b → Resembles S (f a) (g b)) :
    Resembles (List.Forall₂ S) (as.mapM f) (bs.mapM g) := by
  induction has with
  | nil => exact pure .nil
  | cons hab _ ih =>
      rw [List.mapM_cons, List.mapM_cons]
      exact (h _ _ hab).bind fun _ _ hc => ih.bind fun _ _ hcs => pure (.cons hc hcs)

section Moved
variable {n : Nat}

theorem report (token : Token) (error : StaticError) :
    Resembles Eq (Resolve.report token error) (Resolve.report (token.down n) error) :=
  step (fun _ _ hs => hs.report n token error) fun s => s.restored_report _ _

/-- Items further down. -/
theorem mapDown {f : α → Resolve α} {g : α → Resolve α} {down : α → α} {as : List α}
    (h : ∀ a, Resembles (fun b c => c = down b) (f a) (g (down a))) :
    Resembles (fun bs cs => cs = bs.map down) (as.mapM f) ((as.map down).mapM g) := by
  have hall : Resembles (List.Forall₂ fun b c => c = down b) (as.mapM f) ((as.map down).mapM g) :=
    mapM (R := fun a b => b = down a) (List.forall₂_map_right_iff.mpr
      (List.forall₂_same.mpr fun _ _ => rfl)) fun a b hab => hab ▸ h a
  refine hall.weaken fun bs cs hbs => ?_
  induction hbs with
  | nil => rfl
  | cons hb _ ih => rw [hb, ih, List.map_cons]

theorem optionDown {f : α → Resolve α} {g : α → Resolve α} {down : α → α} {o : Option α}
    (h : ∀ a, Resembles (fun b c => c = down b) (f a) (g (down a))) :
    Resembles (fun b c => c = b.map down) (o.mapM f) ((o.map down).mapM g) := by
  cases o with
  | none => exact pure rfl
  | some a => exact (h a).bind fun _ _ hb => pure (congrArg some hb)

/-- An error is reported if a condition holds, and resolution goes on. -/
theorem checking {c c' : Scoping → Prop} [DecidablePred c] [DecidablePred c'] {p : Resolve α}
    {q : Resolve β} {token : Token} {error : StaticError}
    (hc : ∀ s s' : Scoping, s.Covers s' → (c' s' ↔ c s)) (h : Resembles R p q) :
    Resembles R
      (get >>= fun s => if c s then Resolve.report token error >>= fun _ => p else p)
      (get >>= fun s => if c' s then Resolve.report (token.down n) error >>= fun _ => q else q) := by
  refine getting fun s s' hs => ?_
  by_cases hcs : c s
  · rw [if_pos hcs, if_pos ((hc s s' hs).mpr hcs)]
    exact (report token error).bind fun _ _ _ => h
  · rw [if_neg hcs, if_neg (mt (hc s s' hs).mp hcs)]
    exact h

theorem bindName (token : Token) (name : String) :
    Resembles Eq (Resolve.bind token name) (Resolve.bind (token.down n) name) :=
  step (fun _ _ hs => (hs.declare n token name).define name)
    fun s => (s.restored_declare token name).trans (Scoping.restored_define _ _)

theorem record (form : UseForm) (use : NameUse) (hops : Nat) :
    Resembles (fun a b => b = a.down n) (Resolve.record form use hops)
      (Resolve.record form (use.down n) hops) :=
  fun s _ hs => .ok rfl { hs with } { Restored.refl s with }

theorem lookUp (form : UseForm) (use : NameUse) :
    Resembles (fun a b => b = a.down n) (Resolve.lookUp form use)
      (Resolve.lookUp form (use.down n)) := by
  refine getting fun s s' hs => ?_
  rw [hs.scopes, NameUse.name_down, Token.lexeme_down]
  cases hops? use.name.lexeme s.scopes with
  | some hops => exact record form use hops
  | none => exact pure rfl

/-- Where more globals are known, an error may become a line of the log. -/
theorem readOuter (use : NameUse) (outer : List StaticScope) :
    Resembles (fun a b => b = a.down n) (Resolve.readOuter use outer)
      (Resolve.readOuter (use.down n) outer) := by
  unfold Resolve.readOuter
  dsimp only
  rw [NameUse.name_down, Token.lexeme_down]
  cases hops? use.name.lexeme outer with
  | some hops => exact record .read use (hops + 1)
  | none =>
      refine getting fun s s' hs => ?_
      by_cases hknown : use.name.lexeme ∈ s.globals
      · rw [if_pos hknown, if_pos (hs.globals hknown)]
        intro t t' ht
        refine .ok rfl { ht with errors := ?_ } { Restored.refl t with }
        rw [countErrors_push_log, countErrors_push_log]
        exact ht.errors
      · rw [if_neg hknown]
        by_cases hknown' : use.name.lexeme ∈ s'.globals
        · rw [if_pos hknown']
          intro t t' ht
          refine .ok rfl { ht with errors := ?_ } (t.restored_report use.name .ownInitializer)
          unfold Scoping.report
          rw [countErrors_push_log, countErrors_push_error]
          exact Nat.le_succ_of_le ht.errors
        · rw [if_neg hknown']
          exact (report use.name .ownInitializer).bind fun _ _ _ => pure rfl

/-- Where more globals are known, an error may be none. -/
theorem read (use : NameUse) :
    Resembles (fun a b => b = a.down n) (Resolve.read use) (Resolve.read (use.down n)) := by
  refine getting fun s s' hs => ?_
  rw [NameUse.name_down, Token.lexeme_down, hs.scopes, hs.initializing]
  cases s.scopes with
  | cons inner outer =>
      by_cases hbegun : inner.names.find? use.name.lexeme = some false
      · simp only [hbegun, if_true]
        exact readOuter use outer
      · simp only [hbegun, if_false]
        exact lookUp .read use
  | nil =>
      dsimp only
      by_cases hinit : use.name.lexeme ∈ s.initializing ∧ use.name.lexeme ∉ s.globals
      · rw [if_pos hinit]
        by_cases hknown' : use.name.lexeme ∈ s'.globals
        · rw [if_neg fun h => h.2 hknown']
          intro t t' ht
          refine .ok rfl { ht with errors := ?_ } (t.restored_report use.name .ownInitializer)
          unfold Scoping.report
          rw [countErrors_push_error]
          exact Nat.le_succ_of_le ht.errors
        · rw [if_pos ⟨hinit.1, hknown'⟩]
          exact (report use.name .ownInitializer).bind fun _ _ _ => pure rfl
      · rw [if_neg hinit, if_neg fun h => hinit ⟨h.1, fun hx => h.2 (hs.globals hx)⟩]
        exact pure rfl

theorem checkFieldWrite (object : Expr) (name : Token) :
    Resembles Eq (Resolve.checkFieldWrite object name)
      (Resolve.checkFieldWrite (object.down n) (name.down n)) := by
  unfold Resolve.checkFieldWrite
  cases object with
  | name use =>
      rw [Expr.down]
      refine getting fun s s' hs => ?_
      rw [NameUse.name_down, Token.lexeme_down, hs.isConstant]
      split
      · exact report _ _
      · exact pure rfl
  | _ =>
      rw [Expr.down]
      exact pure rfl

theorem checkSuper (keyword : Token) :
    Resembles Eq (Resolve.checkSuper keyword) (Resolve.checkSuper (keyword.down n)) := by
  refine getting fun s s' hs => ?_
  rw [hs.classContext]
  cases s.classContext with
  | derived => exact pure rfl
  | _ => exact report _ _

theorem checkReturn (keyword : Token) :
    Resembles Eq (Resolve.checkReturn keyword) (Resolve.checkReturn (keyword.down n)) := by
  refine getting fun s s' hs => ?_
  rw [hs.function]
  split
  · exact report _ _
  · exact pure rfl

end Moved

end Resembles

/-- Trees are resolved alike further down. -/
structure LevelResembles (n levels : Nat) : Prop where
  expression : ∀ e, Resembles (fun a b => b = Expr.down n a) (expression levels e)
    (expression levels (e.down n))
  statement : ∀ st, Resembles (fun a b => b = Stmt.down n a) (statement levels st)
    (statement levels (st.down n))
  method : ∀ f, Resembles (fun a b => b = FunctionDecl.down n a) (method levels f)
    (method levels (f.down n))
  functionBody : ∀ context f, Resembles (fun a b => b = FunctionDecl.down n a)
    (functionBody levels context f) (functionBody levels context (f.down n))

namespace LevelResembles
variable {n levels : Nat}

theorem expression_succ (ih : LevelResembles n levels) (e : Expr) :
    Resembles (fun a b => b = Expr.down n a) (Resolve.expression (levels + 1) e)
      (Resolve.expression (levels + 1) (e.down n)) := by
  have hpart := ih.expression
  unfold Resolve.expression
  cases e with
  | literal value =>
      rw [Expr.down]
      exact .pure (by rw [Expr.down])
  | grouping inner =>
      rw [Expr.down]
      exact (hpart inner).bind fun _ _ h => .pure (by rw [Expr.down, h])
  | name use =>
      rw [Expr.down]
      exact (Resembles.read use).bind fun _ _ h => .pure (by rw [Expr.down, h])
  | assign use value =>
      rw [Expr.down]
      refine (hpart value).bind fun v v' hv => .checking (fun s s' hs => ?_) ?_
      · rw [NameUse.name_down, Token.lexeme_down, hs.isConstant]
      · exact (Resembles.lookUp .assign use).bind fun _ _ h => .pure (by rw [Expr.down, h, hv])
  | unary op token operand =>
      rw [Expr.down]
      exact (hpart operand).bind fun _ _ h => .pure (by rw [Expr.down, h])
  | binary left op token right =>
      rw [Expr.down]
      exact (hpart left).bind fun _ _ hl => (hpart right).bind fun _ _ hr =>
        .pure (by rw [Expr.down, hl, hr])
  | logical left op token right =>
      rw [Expr.down]
      exact (hpart left).bind fun _ _ hl => (hpart right).bind fun _ _ hr =>
        .pure (by rw [Expr.down, hl, hr])
  | call callee paren arguments =>
      rw [Expr.down, downExprs_eq]
      exact (hpart callee).bind fun _ _ hc => (Resembles.mapDown hpart).bind fun _ _ has =>
        .pure (by rw [Expr.down, downExprs_eq, hc, has])
  | get object name =>
      rw [Expr.down]
      exact (hpart object).bind fun _ _ h => .pure (by rw [Expr.down, h])
  | set object name value =>
      rw [Expr.down]
      refine (hpart value).bind fun _ _ hv => (Resembles.checkFieldWrite object name).bind
        fun _ _ _ => (hpart object).bind fun _ _ ho => .pure (by rw [Expr.down, ho, hv])
  | this use =>
      rw [Expr.down]
      refine .getting fun s s' hs => ?_
      rw [hs.classContext]
      split
      · exact (Resembles.report use.name _).bind fun _ _ _ => .pure (by rw [Expr.down])
      · exact (Resembles.lookUp .this use).bind fun _ _ h => .pure (by rw [Expr.down, h])
  | super use method =>
      rw [Expr.down]
      exact (Resembles.checkSuper use.name).bind fun _ _ _ =>
        (Resembles.lookUp .super use).bind fun _ _ h => .pure (by rw [Expr.down, h])
  | lambda function =>
      rw [Expr.down]
      exact (ih.functionBody .lambda function).bind fun _ _ h => .pure (by rw [Expr.down, h])

theorem functionBody_succ (ih : LevelResembles n levels) (context : FunctionContext)
    (f : FunctionDecl) : Resembles (fun a b => b = FunctionDecl.down n a)
      (Resolve.functionBody (levels + 1) context f)
      (Resolve.functionBody (levels + 1) context (f.down n)) := by
  obtain ⟨name, parameters, body⟩ := f
  rw [FunctionDecl.down, downStmts_eq]
  have hparameters : Resembles Eq (parameters.forM fun p => Resolve.bind p p.lexeme)
      ((parameters.map (Token.down n)).forM fun p => Resolve.bind p p.lexeme) := by
    induction parameters with
    | nil => exact .pure rfl
    | cons p parameters ih => exact (Resembles.bindName p p.lexeme).bind fun _ _ _ => ih
  refine .inFunction (.inScope (hparameters.bind fun _ _ _ => ?_))
  refine (Resembles.mapDown ih.statement).bind fun _ _ h => .pure ?_
  rw [FunctionDecl.down, downStmts_eq, h]

theorem statement_succ (ih : LevelResembles n levels) (st : Stmt) :
    Resembles (fun a b => b = Stmt.down n a) (Resolve.statement (levels + 1) st)
      (Resolve.statement (levels + 1) (st.down n)) := by
  have hpart := ih.expression
  unfold Resolve.statement
  cases st with
  | expression e =>
      rw [Stmt.down]
      exact (hpart e).bind fun _ _ h => .pure (by rw [Stmt.down, h])
  | print e =>
      rw [Stmt.down]
      exact (hpart e).bind fun _ _ h => .pure (by rw [Stmt.down, h])
  | var mutability name initial =>
      have hdown : ∀ o : Option Expr, (Stmt.var mutability name o).down n =
          .var mutability (name.down n) (o.map (Expr.down n)) := by
        intro o
        cases o <;> rw [Stmt.down] <;> rfl
      rw [hdown]
      refine Resembles.bind (R := Eq) (.step (fun _ _ hs => hs.declare n name name.lexeme)
        fun s => s.restored_declare _ _) fun _ _ _ => ?_
      refine (Resembles.optionDown fun e => (hpart e).initializing).bind fun o o' ho => ?_
      refine Resembles.bind (R := Eq) (.step
        (fun _ _ hs => (hs.define name.lexeme).setMutability name.lexeme mutability)
        fun s => (s.restored_define _).trans (restored_setMutability _ _ _)) fun _ _ _ => .pure ?_
      rw [hdown, ho]
  | block body =>
      rw [Stmt.down, downStmts_eq]
      exact (Resembles.inScope (.mapDown ih.statement)).bind fun _ _ h =>
        .pure (by rw [Stmt.down, downStmts_eq, h])
  | «if» condition thenBranch elseBranch =>
      have hdown : ∀ (e : Expr) (s : Stmt) (o : Option Stmt), (Stmt.if e s o).down n =
          .if (e.down n) (s.down n) (o.map (Stmt.down n)) := by
        intro e s o
        cases o <;> rw [Stmt.down] <;> rfl
      rw [hdown]
      refine (hpart condition).bind fun _ _ he => (ih.statement thenBranch).bind fun _ _ hs => ?_
      exact (Resembles.optionDown ih.statement).bind fun _ _ ho => .pure (by rw [hdown, he, hs, ho])
  | «while» condition body increment =>
      have hdown : ∀ (e : Expr) (s : Stmt) (o : Option Expr), (Stmt.while e s o).down n =
          .while (e.down n) (s.down n) (o.map (Expr.down n)) := by
        intro e s o
        cases o <;> rw [Stmt.down] <;> rfl
      rw [hdown]
      refine .inLoop ((hpart condition).bind fun _ _ he => (ih.statement body).bind fun _ _ hs => ?_)
      exact (Resembles.optionDown hpart).bind fun _ _ ho => .pure (by rw [hdown, he, hs, ho])
  | «break» keyword =>
      rw [Stmt.down]
      refine .checking (fun s s' hs => by rw [hs.inLoop]) (.pure (by rw [Stmt.down]))
  | «continue» keyword =>
      rw [Stmt.down]
      refine .checking (fun s s' hs => by rw [hs.inLoop]) (.pure (by rw [Stmt.down]))
  | «return» keyword value =>
      have hdown : ∀ o : Option Expr, (Stmt.return keyword o).down n =
          .return (keyword.down n) (o.map (Expr.down n)) := by
        intro o
        cases o <;> rw [Stmt.down] <;> rfl
      rw [hdown]
      refine (Resembles.checkReturn keyword).bind fun _ _ _ => .checking (fun s s' hs => ?_) ?_
      · rw [Option.isSome_map, hs.function]
      · exact (Resembles.optionDown hpart).bind fun _ _ ho => .pure (by rw [hdown, ho])
  | function declaration =>
      rw [Stmt.down]
      have hbody : Resembles (fun a b => b = Stmt.down n a)
          (do return .function (← Resolve.functionBody levels .function declaration))
          (do return .function (← Resolve.functionBody levels .function (declaration.down n))) :=
        (ih.functionBody .function declaration).bind fun _ _ h => .pure (by rw [Stmt.down, h])
      dsimp only
      rw [FunctionDecl.name_down]
      cases declaration.name with
      | none => exact hbody
      | some name => exact (Resembles.bindName name name.lexeme).bind fun _ _ _ => hbody
  | «class» name superclass methods =>
      have hdown : ∀ (o : Option NameUse) (fs : List FunctionDecl), (Stmt.class name o fs).down n =
          .class (name.down n) (o.map (NameUse.down n)) (fs.map (FunctionDecl.down n)) := by
        intro o fs
        rw [Stmt.down, downFunctions_eq]
      rw [hdown]
      have hmethods : Resembles (fun fs gs => gs = fs.map (FunctionDecl.down n))
          (methods.mapM (Resolve.method levels))
          ((methods.map (FunctionDecl.down n)).mapM (Resolve.method levels)) := .mapDown ih.method
      cases superclass with
      | none =>
          refine .inClass ((Resembles.bindName name name.lexeme).bind fun _ _ _ => ?_)
          exact hmethods.inScope.bind fun _ _ h => .pure (by rw [hdown, h]; rfl)
      | some use =>
          have hrest : Resembles (fun a b => b = Stmt.down n a) (do
              let superclass ← Resolve.read use
              return .class name (some superclass) (← Resolve.inScope ["super"]
                (Resolve.inScope ["this"] (methods.mapM (Resolve.method levels))))) (do
              let superclass ← Resolve.read (use.down n)
              return .class (name.down n) (some superclass) (← Resolve.inScope ["super"]
                (Resolve.inScope ["this"]
                  ((methods.map (FunctionDecl.down n)).mapM (Resolve.method levels))))) :=
            (Resembles.read use).bind fun _ _ hu => hmethods.inScope.inScope.bind fun _ _ h =>
              .pure (by rw [hdown, hu, h]; rfl)
          refine .inClass ((Resembles.bindName name name.lexeme).bind fun _ _ _ => ?_)
          dsimp only [Option.map_some]
          rw [NameUse.name_down, Token.lexeme_down, Token.lexeme_down]
          split
          · exact (Resembles.report use.name _).bind fun _ _ _ => hrest
          · exact hrest
  | importModule keyword name as =>
      rw [Stmt.down]
      dsimp only
      rw [importedModule_down, Option.isSome_map, importBinding_down]
      cases importNameError? (importedModule name) as.isSome with
      | some error =>
          exact (Resembles.report name _).bind fun _ _ _ => .pure (by rw [Stmt.down])
      | none =>
          have hname : (as.map (Token.down n)).getD (name.down n) = (as.getD name).down n := by
            cases as <;> rfl
          dsimp only
          rw [hname]
          exact (Resembles.bindName _ _).bind fun _ _ _ => .pure (by rw [Stmt.down])

end LevelResembles

theorem methodContext_down (n : Nat) (f : FunctionDecl) :
    methodContext (f.down n) = methodContext f := by
  unfold methodContext
  rw [FunctionDecl.name_down]
  cases f.name <;> rfl

/-- Trees are resolved alike further down, whatever the levels. -/
theorem levelResembles (n levels : Nat) : LevelResembles n levels := by
  induction levels with
  | zero =>
      exact
        { expression := fun _ => .throw _ _
          statement := fun _ => .throw _ _
          method := fun _ => .throw _ _
          functionBody := fun _ _ => .throw _ _ }
  | succ levels ih =>
      exact
        { expression := ih.expression_succ
          statement := ih.statement_succ
          method := fun f => by
            unfold Resolve.method
            rw [methodContext_down]
            exact ih.functionBody _ f
          functionBody := ih.functionBody_succ }

theorem statements_resemble (n levels : Nat) (body : List Stmt) :
    Resembles (fun a b => b = a.map (Stmt.down n)) (body.mapM (statement levels))
      ((body.map (Stmt.down n)).mapM (statement levels)) :=
  .mapDown (levelResembles n levels).statement

theorem Resembles.restored {R : α → β → Prop} {p : Resolve α} {q : Resolve β} {s t : Scoping} {a : α}
    (h : Resembles R p q) (hr : p s = .ok a t) : s.Restored t := by
  have hpq := h s s (.refl s)
  rw [hr] at hpq
  generalize q s = r at hpq
  cases hpq with
  | ok _ _ hst => exact hst

end Resolve
end Treewalk
