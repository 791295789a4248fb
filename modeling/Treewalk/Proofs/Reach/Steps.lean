import Treewalk.Proofs.Reach.Frames

/-!
# Steps within a region

A computation is contained in a region if it changes nothing else, however it ends, and what it
yields is within. What is contained step by step is contained.
-/
namespace Treewalk

/-- What is done step by step without a note is done without a note. -/
theorem Watched.quietly_bind {ε σ ι α β : Type} (p : EStateM ε σ α) (f : α → EStateM ε σ β) :
    (quietly (p >>= f) : EStateM ε (Watched σ ι) β) = quietly p >>= fun a => quietly (f a) := by
  funext s
  change quietly (EStateM.bind p f) s = EStateM.bind (quietly p) (fun a => quietly (f a)) s
  unfold quietly EStateM.bind
  cases hp : p s.state with
  | ok a t => simp only [hp]
  | error e t => simp only [hp]

/-- A value that is returned with a signal has a property. -/
def Interrupt.Carries (P : Value → Prop) : Interrupt → Prop
  | .signal (.return v) => P v
  | _ => True

/-- The literals and the results of operators are no objects. -/
theorem Literal.value_plain (l : Literal) : l.value.Plain := by
  cases l <;> exact trivial

theorem UnaryOp.apply_plain {op : UnaryOp} {v u : Value} (h : op.apply v = .ok u) : u.Plain := by
  unfold apply at h
  split at h <;> cases h <;> exact trivial

namespace BinaryOp
variable {op : BinaryOp} {x y : Float} {v v' u : Value}

theorem onNumbers_plain (h : op.onNumbers x y = .ok u) : u.Plain := by
  unfold onNumbers at h
  split at h
  case h_4 =>
    split at h
    · cases h
    · cases h
      exact trivial
  case h_5 =>
    split at h
    · cases h
    · split at h
      · cases h
        exact trivial
      · cases h
  all_goals
    cases h
    exact trivial

theorem apply_plain (h : op.apply v v' = .ok u) : u.Plain := by
  unfold apply at h
  split at h
  case h_4 => exact onNumbers_plain h
  all_goals
    cases h
    try exact trivial

end BinaryOp

/-- Code runs at a site within the region. -/
structure Sited (M : Thing → Prop) (w₀ : World) (L : Ref .loader) (w : World) (site : Site) :
    Prop where
  scope : w.Mine M w₀ (.scope site.scope)
  home : w.Homed L (w.Mine M w₀) site.home

/-- A run has gone on within the region, and was within whenever something was noted of a node. -/
structure Went (M : Thing → Prop) (w₀ : World) (L : Ref .loader) (s t : Watched World Event) :
    Prop where
  framed : Framed M w₀ L t.state
  grown : s.state.Extends t.state
  noted : ∀ m site n w, .node m site n w ∈ t.notes →
    .node m site n w ∈ s.notes ∨ Framed M w₀ L w

/-- A computation goes on within the region, and if it succeeds, something holds. -/
def Contained {α : Type} (M : Thing → Prop) (w₀ : World) (L : Ref .loader) (p : Watching α)
    (s : Watched World Event) (Q : α → World → Prop) : Prop :=
  match p s with
  | .ok a t => Went M w₀ L s t ∧ Q a t.state
  | .error i t => Went M w₀ L s t ∧ i.Carries fun v => t.state.Mine M w₀ (.value v)

section
variable {α β : Type} {M : Thing → Prop} {w₀ : World} {L : Ref .loader}
  {s t u : Watched World Event} {site : Site} {w w' : World}

theorem Sited.grow (h : Sited M w₀ L w site) (hw : w.Extends w') : Sited M w₀ L w' site :=
  ⟨h.scope.grow hw, h.home.grow hw⟩

namespace Went

theorem refl (h : Framed M w₀ L s.state) : Went M w₀ L s s :=
  ⟨h, .refl _, fun _ _ _ _ hn => .inl hn⟩

theorem trans (h : Went M w₀ L s t) (h' : Went M w₀ L t u) : Went M w₀ L s u where
  framed := h'.framed
  grown := h.grown.trans h'.grown
  noted := fun m site n w hn => (h'.noted m site n w hn).elim (h.noted m site n w) .inr

/-- The world changes and nothing is noted. -/
theorem silently (h : Framed M w₀ L w) (hw : s.state.Extends w) :
    Went M w₀ L s { s with state := w } :=
  ⟨h, hw, fun _ _ _ _ hn => .inl hn⟩

theorem changed (h : Framed M w₀ L s.state) (hc : Change M w₀ L s.state w) :
    Went M w₀ L s { s with state := w } :=
  silently (h.change hc) hc.grown

/-- What is noted of a node is noted within. -/
theorem noting (h : Framed M w₀ L s.state) {e : Event}
    (he : ∀ m site n w, e = .node m site n w → Framed M w₀ L w) :
    Went M w₀ L s ⟨s.state, e :: s.notes⟩ where
  framed := h
  grown := .refl _
  noted := fun m site n w hn => by
    rcases List.mem_cons.mp hn with hn | hn
    · exact .inr (he m site n w hn.symm)
    · exact .inl hn

end Went

namespace Contained
variable {p : Watching α} {Q : α → World → Prop}

theorem pure {a : α} (h : Framed M w₀ L s.state) (hq : Q a s.state) :
    Contained M w₀ L (Pure.pure a) s Q := ⟨.refl h, hq⟩

theorem throw {i : Interrupt} (h : Framed M w₀ L s.state)
    (hi : i.Carries fun v => s.state.Mine M w₀ (.value v)) :
    Contained M w₀ L (MonadExcept.throw i) s Q := ⟨.refl h, hi⟩

theorem bind {f : α → Watching β} {R : β → World → Prop} (h : Contained M w₀ L p s Q)
    (hf : ∀ a t, Went M w₀ L s t → Q a t.state → Contained M w₀ L (f a) t R) :
    Contained M w₀ L (p >>= f) s R := by
  change match EStateM.bind p f s with
    | .ok b t => Went M w₀ L s t ∧ R b t.state
    | .error i t => Went M w₀ L s t ∧ i.Carries fun v => t.state.Mine M w₀ (.value v)
  unfold Contained at h
  unfold EStateM.bind
  cases hp : p s with
  | error i t =>
      simp only [hp] at h ⊢
      exact h
  | ok a t =>
      simp only [hp] at h ⊢
      have hfa := hf a t h.1 h.2
      unfold Contained at hfa
      cases hf' : f a t with
      | ok b u =>
          simp only [hf'] at hfa ⊢
          exact ⟨h.1.trans hfa.1, hfa.2⟩
      | error i u =>
          simp only [hf'] at hfa ⊢
          exact ⟨h.1.trans hfa.1, hfa.2⟩

theorem map {f : α → β} {R : β → World → Prop} (h : Contained M w₀ L p s Q)
    (hq : ∀ a t, Went M w₀ L s t → Q a t.state → R (f a) t.state) :
    Contained M w₀ L (f <$> p) s R :=
  h.bind fun a t ht ha => .pure ht.framed (hq a t ht ha)

/-- A look at the world. -/
theorem looking {f : World → Watching α} (h : Contained M w₀ L (f s.state) s Q) :
    Contained M w₀ L (Watched.look >>= f) s Q := h

/-- A note of a node. -/
theorem marking {k : Moment} {n : Node} (h : Framed M w₀ L s.state)
    (hp : ∀ t, Went M w₀ L s t → t.state = s.state → Contained M w₀ L p t Q) :
    Contained M w₀ L (Watching.mark k site n >>= fun _ => p) s Q := by
  have hmark : Contained M w₀ L (Watching.mark k site n) s fun _ w => w = s.state := by
    refine ⟨.noting h fun m site' n' w he => ?_, rfl⟩
    cases he
    exact h
  exact hmark.bind fun _ t ht hs => hp t ht hs

/-- Something is done without a note. -/
theorem quietly {q : Eval α} (h : Framed M w₀ L s.state)
    (hq : match q s.state with
      | .ok a w => Change M w₀ L s.state w ∧ Q a w
      | .error i w => Change M w₀ L s.state w ∧ i.Carries fun v => w.Mine M w₀ (.value v)) :
    Contained M w₀ L (Watched.quietly q) s Q := by
  unfold Contained Watched.quietly
  cases hr : q s.state with
  | ok a w =>
      simp only [hr] at hq ⊢
      exact ⟨.changed h hq.1, hq.2⟩
  | error i w =>
      simp only [hr] at hq ⊢
      exact ⟨.changed h hq.1, hq.2⟩

/-- Something is asked, and nothing is done. -/
theorem asking {q : Eval α} (h : Framed M w₀ L s.state)
    (hq : match q s.state with
      | .ok a w => w = s.state ∧ Q a s.state
      | .error i w => w = s.state ∧ ∀ v, i ≠ .signal (.return v)) :
    Contained M w₀ L (Watched.quietly q) s Q := by
  have hsame : Change M w₀ L s.state s.state := .objects (.refl _)
  refine .quietly h ?_
  cases hr : q s.state with
  | ok a w =>
      simp only [hr] at hq ⊢
      obtain ⟨rfl, ha⟩ := hq
      exact ⟨hsame, ha⟩
  | error i w =>
      simp only [hr] at hq ⊢
      obtain ⟨rfl, hi⟩ := hq
      refine ⟨hsame, ?_⟩
      cases i with
      | signal c =>
          cases c with
          | «return» v => exact (hi v rfl).elim
          | _ => trivial
      | _ => trivial

/-- The world is changed. -/
theorem modifying {f : World → World} (h : Framed M w₀ L s.state)
    (hc : Change M w₀ L s.state (f s.state)) :
    Contained M w₀ L (Watched.quietly (modify f)) s fun _ _ => True :=
  .quietly h ⟨hc, trivial⟩

theorem fail {token : Token} {cause : RuntimeCause} (h : Framed M w₀ L s.state) :
    Contained M w₀ L (Watched.quietly (Eval.fail token cause)) s Q :=
  .asking h ⟨rfl, fun _ he => nomatch he⟩

theorem crash {c : Crash} (h : Framed M w₀ L s.state) :
    Contained M w₀ L (Watched.quietly (Eval.crash c)) s Q :=
  .asking h ⟨rfl, fun _ he => nomatch he⟩

theorem mapM {f : α → Watching Value} {as : List α}
    (hf : ∀ a t, Went M w₀ L s t →
      Contained M w₀ L (f a) t fun v w => w.Mine M w₀ (.value v))
    (h : Framed M w₀ L s.state) :
    Contained M w₀ L (as.mapM f) s fun vs w => ∀ v ∈ vs, w.Mine M w₀ (.value v) := by
  induction as generalizing s with
  | nil => exact .pure h fun _ hv => nomatch hv
  | cons a as ih =>
      rw [List.mapM_cons]
      refine (hf a s (.refl h)).bind fun v t ht hv => ?_
      have hrest := ih (fun a u hu => hf a u (ht.trans hu)) ht.framed
      refine hrest.bind fun vs u hu hvs => .pure hu.framed ?_
      intro v' hv'
      rcases List.mem_cons.mp hv' with rfl | hv'
      · exact hv.grow hu.grown
      · exact hvs v' hv'

theorem forM {f : α → Watching Unit} {as : List α}
    (hf : ∀ a ∈ as, ∀ t, Went M w₀ L s t → Contained M w₀ L (f a) t fun _ _ => True)
    (h : Framed M w₀ L s.state) : Contained M w₀ L (as.forM f) s fun _ _ => True := by
  induction as generalizing s with
  | nil => exact .pure h trivial
  | cons a as ih =>
      refine (hf a (List.mem_cons_self ..) s (.refl h)).bind fun _ t ht _ => ?_
      exact ih (fun a ha u hu => hf a (List.mem_cons_of_mem _ ha) u (ht.trans hu)) ht.framed

end Contained

namespace Watching
variable {p : Watching α} {Q : α → World → Prop}

/-! ### Taking interrupts -/

theorem round_contained {body : Watching Unit} (h : Contained M w₀ L body s fun _ _ => True) :
    Contained M w₀ L (round body) s fun _ _ => True := by
  unfold Contained at h ⊢
  unfold round
  cases hb : body s with
  | ok a t =>
      simp only [hb] at h ⊢
      exact h
  | error i t =>
      simp only [hb] at h ⊢
      cases i with
      | signal c =>
          cases c with
          | «return» v => exact h
          | «break» => exact ⟨h.1, trivial⟩
          | «continue» => exact ⟨h.1, trivial⟩
      | _ => exact h

theorem returned_contained {body : Watching Unit} (h : Contained M w₀ L body s fun _ _ => True) :
    Contained M w₀ L (returned body) s fun v w => w.Mine M w₀ (.value v) := by
  unfold Contained at h ⊢
  unfold returned
  cases hb : body s with
  | ok a t =>
      simp only [hb] at h ⊢
      exact ⟨h.1, h.1.framed.closed.plain .nil trivial⟩
  | error i t =>
      simp only [hb] at h ⊢
      cases i with
      | signal c =>
          cases c with
          | «return» v => exact h
          | «break» => exact h
          | «continue» => exact h
      | _ => exact h

theorem atCall_contained {paren : Token} (h : Contained M w₀ L p s Q) :
    Contained M w₀ L (atCall paren p) s Q := by
  unfold Contained at h ⊢
  unfold atCall
  cases hb : p s with
  | ok a t =>
      simp only [hb] at h ⊢
      exact h
  | error i t =>
      simp only [hb] at h ⊢
      cases i with
      | overflow => exact ⟨h.1, trivial⟩
      | _ => exact h

theorem loop_contained {condition : Watching Bool} {body increment : Watching Unit}
    (hc : ∀ t, Went M w₀ L s t → Contained M w₀ L condition t fun _ _ => True)
    (hb : ∀ t, Went M w₀ L s t → Contained M w₀ L body t fun _ _ => True)
    (hi : ∀ t, Went M w₀ L s t → Contained M w₀ L increment t fun _ _ => True)
    (h : Framed M w₀ L s.state) (patience : Nat) :
    Contained M w₀ L (loop condition body increment patience) s fun _ _ => True := by
  induction patience generalizing s with
  | zero => exact .throw h trivial
  | succ patience ih =>
      refine (hc s (.refl h)).bind fun go t ht _ => ?_
      cases go with
      | false => exact .pure ht.framed trivial
      | true =>
          refine (round_contained (hb t ht)).bind fun go u hu _ => ?_
          cases go with
          | false => exact .pure hu.framed trivial
          | true =>
              refine (hi u (ht.trans hu)).bind fun _ v hv _ => ?_
              have hsv := (ht.trans hu).trans hv
              exact ih (fun x hx => hc x (hsv.trans hx)) (fun x hx => hb x (hsv.trans hx))
                (fun x hx => hi x (hsv.trans hx)) hv.framed

/-! ### Scopes and names -/

theorem newScope_contained (h : Framed M w₀ L s.state) (c : Construct) {r : Ref .scope}
    (hr : s.state.Mine M w₀ (.scope r)) :
    Contained M w₀ L (newScope c r) s fun r' w => w.Mine M w₀ (.scope r') := by
  have hmake : Contained M w₀ L (Watched.quietly (Eval.newScope r)) s fun r' w =>
      w.Mine M w₀ (.scope r') := by
    refine .quietly h ⟨.newScope hr, h.fresh ?_ (Nat.lt_irrefl _)⟩
    exact Nat.lt_of_lt_of_eq (Nat.lt_succ_self _) (Scopes.size_addChild ..).symm
  refine hmake.bind fun r' t ht hr' => ?_
  have hnote : Contained M w₀ L (Watched.note (.opened r' c)) t fun _ w => w = t.state :=
    ⟨.noting ht.framed (fun _ _ _ _ he => nomatch he), rfl⟩
  exact hnote.bind fun _ u hu hsame => .pure hu.framed (hsame ▸ hr')

theorem define_contained (h : Framed M w₀ L s.state) {r : Ref .scope} (x : String) {v : Value}
    (hr : s.state.Mine M w₀ (.scope r)) (hv : s.state.Mine M w₀ (.value v)) :
    Contained M w₀ L (Watched.quietly (Eval.define r x v)) s fun _ _ => True :=
  .modifying h (.define x hr hv)

theorem loadAt_contained (h : Framed M w₀ L s.state) {r : Ref .scope} (hops : Nat) (x : String)
    (hr : s.state.Mine M w₀ (.scope r)) :
    Contained M w₀ L (Watched.quietly (Eval.loadAt r hops x)) s fun v w =>
      w.Mine M w₀ (.value v) := by
  refine .asking h ?_
  cases ha : s.state.scopes.ancestor? hops r with
  | none =>
      unfold Eval.loadAt
      rw [Eval.bind_run, Eval.ancestor_run, ha]
      exact ⟨rfl, fun _ he => nomatch he⟩
  | some r' =>
      rw [Eval.loadAt_run r hops x ha]
      cases hv : s.state.scopes.find? r' x with
      | some v => exact ⟨rfl, h.closed.points _ _ (h.closed.ancestor hr ha) (.bound hv)⟩
      | none => exact ⟨rfl, fun _ he => nomatch he⟩

theorem read_contained (h : Framed M w₀ L s.state) (hs : Sited M w₀ L s.state site)
    (use : NameUse) :
    Contained M w₀ L (Watched.quietly (Eval.read site use)) s fun v w =>
      w.Mine M w₀ (.value v) := by
  cases hu : use.hops with
  | some hops =>
      have hread : Eval.read site use = Eval.loadAt site.scope hops use.name.lexeme :=
        funext fun w => Eval.read_local site hu w
      rw [hread]
      exact loadAt_contained h hops _ hs.scope
  | none =>
      refine .asking h ?_
      rw [Eval.read_global site hu]
      cases hl : s.state.scopes.load? (s.state.globals site.home) use.name.lexeme with
      | none => exact ⟨rfl, fun _ he => nomatch he⟩
      | some v =>
          obtain ⟨r, hr, hv⟩ := Option.bind_eq_some_iff.mp hl
          exact ⟨rfl, h.closed.points _ _ (h.closed.holder hs.home.globals hr) (.bound hv)⟩

theorem assign_contained (h : Framed M w₀ L s.state) (hs : Sited M w₀ L s.state site)
    (use : NameUse) {v : Value} (hv : s.state.Mine M w₀ (.value v)) :
    Contained M w₀ L (Watched.quietly (Eval.assign site use v)) s fun _ _ => True := by
  cases hu : use.hops with
  | some hops =>
      refine .quietly h ?_
      cases ha : s.state.scopes.ancestor? hops site.scope with
      | none =>
          unfold Eval.assign
          simp only [hu, Eval.bind_run, Eval.ancestor_run, ha]
          exact ⟨.objects (.refl _), trivial⟩
      | some r =>
          rw [Eval.assign_local site hu v ha]
          exact ⟨.define _ (h.closed.ancestor hs.scope ha) hv, trivial⟩
  | none =>
      refine .quietly h ?_
      rw [Eval.assign_global site hu]
      cases hstore : s.state.scopes.store? (s.state.globals site.home) use.name.lexeme v with
      | none => exact ⟨.objects (.refl _), trivial⟩
      | some scopes =>
          obtain ⟨r, hr, -, rfl⟩ := Scopes.store?_some hstore
          exact ⟨.define _ (h.closed.holder hs.home.globals hr) hv, trivial⟩

/-! ### Objects -/

theorem ofOperator_contained (h : Framed M w₀ L s.state) (token : Token)
    {r : Except OperatorFailure Value} (hr : ∀ v, r = .ok v → v.Plain) :
    Contained M w₀ L (Watched.quietly (Eval.ofOperator token r)) s fun v w =>
      w.Mine M w₀ (.value v) := by
  cases r with
  | ok v => exact .asking h ⟨rfl, h.closed.plain v (hr v rfl)⟩
  | error e =>
      cases e with
      | error cause => exact .fail h
      | crash c => exact .crash h

theorem checkCall_contained (h : Framed M w₀ L s.state) (callee : Value) (paren : Token)
    (found : Nat) :
    Contained M w₀ L (Watched.quietly (Eval.checkCall callee paren found)) s
      fun _ _ => True := by
  refine .asking h ?_
  unfold Eval.checkCall
  rw [Eval.get_run]
  cases s.state.arity? callee with
  | none => exact ⟨rfl, fun _ he => nomatch he⟩
  | some expected =>
      by_cases hne : found ≠ expected
      · simp only [hne, ne_eq, not_false_eq_true, if_true]
        exact ⟨rfl, fun _ he => nomatch he⟩
      · simp only [hne, if_false]
        exact ⟨rfl, trivial⟩

theorem checkFields_contained (h : Framed M w₀ L s.state) (object : Value) (name : Token) :
    Contained M w₀ L (Watched.quietly (Eval.checkFields object name)) s fun _ _ => True := by
  cases object with
  | «instance» r => exact .asking h ⟨rfl, trivial⟩
  | module r => exact .asking h ⟨rfl, trivial⟩
  | _ => exact .fail h

theorem setProperty_contained (h : Framed M w₀ L s.state) {object v : Value} (name : Token)
    (ho : s.state.Mine M w₀ (.value object)) (hv : s.state.Mine M w₀ (.value v)) :
    Contained M w₀ L (Watched.quietly (Eval.setProperty object name v)) s fun _ _ => True := by
  refine .quietly h ?_
  unfold Eval.setProperty
  rw [Eval.get_run]
  cases object with
  | «instance» r => exact ⟨.setField name.lexeme ho hv, trivial⟩
  | module r =>
      by_cases hc : s.state.scopes.contains (s.state.globals (s.state.modules.get r).home)
          name.lexeme = true
      · simp only [hc, if_true]
        exact ⟨.define _ (h.closed.modules r ho).globals hv, trivial⟩
      · simp only [hc]
        exact ⟨.objects (.refl _), trivial⟩
  | _ => exact ⟨.objects (.refl _), trivial⟩

theorem newFunction_contained (h : Framed M w₀ L s.state) {f : Closure}
    (hscope : s.state.Mine M w₀ (.scope f.scope))
    (hhome : s.state.Homed L (s.state.Mine M w₀) f.home) :
    Contained M w₀ L (Watched.quietly (Eval.newFunction f)) s fun v w =>
      w.Mine M w₀ (.value v) := by
  refine .quietly h ⟨.newFunction hscope hhome, h.fresh ?_ (Nat.lt_irrefl _)⟩
  exact Nat.lt_of_lt_of_eq (Nat.lt_succ_self _) (Arena.size_add ..).symm

theorem newClass_contained (h : Framed M w₀ L s.state) {c : ClassObject}
    (hsuper : ∀ r, c.superclass = some r → s.state.Mine M w₀ (.value (.class r)))
    (hmethods : ∀ x f, c.methods.find? x = some f →
      s.state.Mine M w₀ (.scope f.scope) ∧ s.state.Homed L (s.state.Mine M w₀) f.home) :
    Contained M w₀ L (Watched.quietly (Eval.newClass c)) s fun v w =>
      w.Mine M w₀ (.value v) := by
  refine .quietly h ⟨.newClass hsuper hmethods, h.fresh ?_ (Nat.lt_irrefl _)⟩
  exact Nat.lt_of_lt_of_eq (Nat.lt_succ_self _) (Arena.size_add ..).symm

theorem newInstance_contained (h : Framed M w₀ L s.state) {c : Ref .class}
    (hc : s.state.Mine M w₀ (.value (.class c))) :
    Contained M w₀ L (Watched.quietly (Eval.newInstance c)) s fun i w =>
      w.Mine M w₀ (.value (.instance i)) := by
  refine .quietly h ⟨.newInstance hc, h.fresh ?_ (Nat.lt_irrefl _)⟩
  exact Nat.lt_of_lt_of_eq (Nat.lt_succ_self _) (Arena.size_add ..).symm

theorem bound_contained (h : Framed M w₀ L s.state) {f : Closure} {i : Ref .instance}
    (hscope : s.state.Mine M w₀ (.scope f.scope)) (hi : s.state.Mine M w₀ (.value (.instance i))) :
    Contained M w₀ L (bound f i) s fun g w =>
      w.Mine M w₀ (.scope g.scope) ∧ g.home = f.home := by
  refine (newScope_contained h (.this f.declaration) hscope).bind fun r t ht hr => ?_
  refine (define_contained ht.framed "this" hr (hi.grow ht.grown)).bind fun _ u hu _ => ?_
  exact .pure hu.framed ⟨hr.grow hu.grown, rfl⟩

/-- A method is bound and becomes a function. -/
theorem bind_contained (h : Framed M w₀ L s.state) {f : Closure} {i : Ref .instance}
    (hf : s.state.Mine M w₀ (.scope f.scope) ∧ s.state.Homed L (s.state.Mine M w₀) f.home)
    (hi : s.state.Mine M w₀ (.value (.instance i))) :
    Contained M w₀ L (bound f i >>= fun g => Watched.quietly (Eval.newFunction g)) s fun v w =>
      w.Mine M w₀ (.value v) := by
  refine (bound_contained h hf.1 hi).bind fun g t ht ⟨hscope, hhome⟩ => ?_
  exact newFunction_contained ht.framed hscope (hhome ▸ hf.2.grow ht.grown)

theorem property_contained (h : Framed M w₀ L s.state) {object : Value} (name : Token)
    (ho : s.state.Mine M w₀ (.value object)) :
    Contained M w₀ L (property object name) s fun v w => w.Mine M w₀ (.value v) := by
  refine .looking ?_
  cases object with
  | «instance» r =>
      cases hv : (s.state.instances.get r).fields.find? name.lexeme with
      | some v =>
          simp only [hv]
          exact .pure h (h.closed.points _ _ ho (.field hv))
      | none =>
          cases hm : s.state.method? (s.state.instances.get r).classRef name.lexeme with
          | some f =>
              simp only [hv, hm]
              exact bind_contained h (h.closed.method (h.closed.points _ _ ho .made) hm) ho
          | none =>
              simp only [hv, hm]
              exact .fail h
  | module r =>
      cases hv : s.state.scopes.find? (s.state.globals (s.state.modules.get r).home)
          name.lexeme with
      | some v =>
          simp only [hv]
          exact .pure h (h.closed.points _ _ (h.closed.modules r ho).globals (.bound hv))
      | none =>
          simp only [hv]
          exact .fail h
  | _ => exact .fail h

theorem superMethod_contained (h : Framed M w₀ L s.state) (hs : Sited M w₀ L s.state site)
    (use : NameUse) (method : Token) :
    Contained M w₀ L (superMethod site use method) s fun v w => w.Mine M w₀ (.value v) := by
  unfold superMethod
  cases use.hops with
  | none => exact .crash h
  | some hops =>
      refine (loadAt_contained h hops "super" hs.scope).bind fun c t ht hc => ?_
      have hthis := loadAt_contained ht.framed (hops - 1) "this" (hs.scope.grow ht.grown)
      refine hthis.bind fun i u hu hi => ?_
      have hcu := hc.grow hu.grown
      cases c with
      | «class» c =>
          cases i with
          | «instance» i =>
              refine .looking ?_
              cases hm : u.state.method? c method.lexeme with
              | some f => exact bind_contained hu.framed (hu.framed.closed.method hcu hm) hi
              | none => exact .fail hu.framed
          | _ => exact .crash hu.framed
      | _ => exact .crash hu.framed

theorem superclass_contained (h : Framed M w₀ L s.state) (hs : Sited M w₀ L s.state site)
    (use : NameUse) :
    Contained M w₀ L (superclass site use) s fun c w => w.Mine M w₀ (.value (.class c)) := by
  refine .marking h fun t ht hsame => ?_
  have hread := read_contained ht.framed (hs.grow ht.grown) use
  unfold Contained Watched.quietly at hread ⊢
  rw [Eval.superclass_run]
  cases hr : Eval.read site use t.state with
  | error i w =>
      simp only [hr] at hread ⊢
      exact hread
  | ok v w =>
      simp only [hr] at hread ⊢
      cases v with
      | «class» c => exact hread
      | _ => exact ⟨hread.1, trivial⟩

/-- A class is made when the scope of its methods is known. -/
theorem makeClass_contained (h : Framed M w₀ L s.state) (hs : Sited M w₀ L s.state site)
    (name : Token) {parent : Option (Ref .class)} (methods : List FunctionDecl) {r : Ref .scope}
    (hparent : ∀ c, parent = some c → s.state.Mine M w₀ (.value (.class c)))
    (hr : s.state.Mine M w₀ (.scope r)) :
    Contained M w₀ L (do
      let c ← Watched.quietly (Eval.newClass ⟨name.lexeme, parent, methods.foldl (fun ms d =>
        ms.insert d.displayName ⟨d, r, site.home, d.displayName == "init"⟩) {}⟩)
      Watched.quietly (Eval.define site.scope name.lexeme c)) s fun _ _ => True := by
  have hclass := newClass_contained h (c := ⟨name.lexeme, parent, methods.foldl (fun ms d =>
    ms.insert d.displayName ⟨d, r, site.home, d.displayName == "init"⟩) {}⟩) hparent
    fun x f hf => by
      rcases find?_methods (fun d => ⟨d, r, site.home, d.displayName == "init"⟩) hf with
        hf | ⟨d, -, -, rfl⟩
      · cases hf
      · exact ⟨hr, hs.home⟩
  exact hclass.bind fun c t ht hc =>
    define_contained ht.framed _ (hs.scope.grow ht.grown) hc

theorem declareClass_contained (h : Framed M w₀ L s.state) (hs : Sited M w₀ L s.state site)
    (name : Token) {parent : Option (Ref .class)} (methods : List FunctionDecl)
    (hparent : ∀ c, parent = some c → s.state.Mine M w₀ (.value (.class c))) :
    Contained M w₀ L (declareClass site name parent methods) s fun _ _ => True := by
  have hnil := define_contained h name.lexeme hs.scope (h.closed.plain .nil trivial)
  refine hnil.bind fun _ t ht _ => ?_
  have hst := hs.grow ht.grown
  cases parent with
  | none => exact makeClass_contained ht.framed hst name methods (fun _ he => nomatch he) hst.scope
  | some c =>
      refine (newScope_contained ht.framed (.super methods) hst.scope).bind fun r u hu hr => ?_
      have hc := (hparent c rfl).grow (ht.grown.trans hu.grown)
      refine (define_contained hu.framed "super" hr hc).bind fun _ x hx _ => ?_
      refine makeClass_contained hx.framed (hst.grow (hu.grown.trans hx.grown)) name methods ?_
        (hr.grow hx.grown)
      intro c' hc'
      cases hc'
      exact hc.grow hx.grown

end Watching
end
end Treewalk
