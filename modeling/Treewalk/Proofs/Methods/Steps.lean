import Treewalk.Proofs.Run.Yields
import Treewalk.Proofs.Run.Calls
import Treewalk.Proofs.Reach.Steps
import Treewalk.Proofs.Methods.Receivers

/-!
# Steps of orderly runs

A run of accepted code keeps the world orderly and retains what scopes hold for methods. Whenever
something is noted of a node, it runs in a scope that holds nothing for methods; a scope that was
made for a receiver or for the superclass of a class holds it.
-/
namespace Treewalk

/-- Values that are no objects need not be made. -/
theorem World.made_plain {w : World} {v : Value} (h : v.Plain) : w.Made v := by
  cases v <;> first | exact trivial | cases h

namespace Eval

theorem loadAt_cases (r : Ref .scope) (hops : Nat) (x : String) (w : World) :
    (∃ r' v, w.scopes.ancestor? hops r = some r' ∧ w.scopes.find? r' x = some v ∧
      loadAt r hops x w = .ok v w) ∨ ∃ c, loadAt r hops x w = .error (.crash c) w := by
  cases ha : w.scopes.ancestor? hops r with
  | none =>
      refine .inr ⟨.shortChain hops, ?_⟩
      unfold loadAt
      rw [bind_run, ancestor_run, ha]
  | some r' =>
      rw [loadAt_run r hops x ha]
      cases hv : w.scopes.find? r' x with
      | some v => exact .inl ⟨r', v, rfl, hv, rfl⟩
      | none => exact .inr ⟨_, rfl⟩

/-- What is read is bound somewhere. -/
theorem read_cases (site : Site) (use : NameUse) (w : World) :
    (∃ r v, w.scopes.find? r use.name.lexeme = some v ∧ read site use w = .ok v w) ∨
      ∃ i, (∀ v, i ≠ .signal (.return v)) ∧ read site use w = .error i w := by
  cases hu : use.hops with
  | some hops =>
      rw [read_local site hu]
      rcases loadAt_cases site.scope hops use.name.lexeme w with ⟨r, v, -, hv, hr⟩ | ⟨c, hr⟩
      · exact .inl ⟨r, v, hv, hr⟩
      · exact .inr ⟨.crash c, nofun, hr⟩
  | none =>
      rw [read_global site hu]
      cases hl : w.scopes.load? (w.globals site.home) use.name.lexeme with
      | none => exact .inr ⟨.error _, nofun, rfl⟩
      | some v =>
          obtain ⟨r, -, hv⟩ := Option.bind_eq_some_iff.mp hl
          exact .inl ⟨r, v, hv, rfl⟩

end Eval

/-- A class statement has just been reached, and its superclass read. -/
def Inheriting (notes : List Event) (site : Site) (name : Token) (methods : List FunctionDecl)
    (c : Ref .class) : Prop :=
  ∃ use w earlier, Eval.read site use w = .ok (.class c) w ∧
    notes = .node .reached site (.expr (.name use)) w ::
      .node .reached site (.stmt (.class name (some use) methods)) w :: earlier

/-- The scope that was made for a construct holds for methods what it was made for, and nothing if
code runs in it. The superclass of a class was read when the class statement was executed, right
before its scope was made. -/
def Watched.Shows (t : Watched World Event) (r : Ref .scope) : Construct → Prop
  | .this _ => ∃ i, t.state.scopes.receiver? r = some i
  | .super methods => ∃ c, t.state.scopes.superclass? r = some c ∧
      ∃ later site name earlier, t.notes = later ++ .opened r (.super methods) :: earlier ∧
        Inheriting earlier site name methods c
  | .block _ | .function _ => t.state.Open r

/-- What is noted of a node on the way to a world is noted in order. -/
structure NotedInOrder (site : Site) (n : Node) (w w' : World) : Prop where
  orderly : w.Orderly
  retains : w.Retains w'
  «open» : w.Open site.scope
  named : n.Named

/-- A run that has gone on in order. -/
structure Proceeds (s t : Watched World Event) : Prop where
  orderly : t.state.Orderly
  steps : s.state.Steps t.state
  notes : s.notes <:+ t.notes
  noted : ∀ m site n w, .node m site n w ∈ t.notes →
    .node m site n w ∈ s.notes ∨ s.state.Steps w ∧ NotedInOrder site n w t.state
  opened : ∀ r c, .opened r c ∈ t.notes → .opened r c ∈ s.notes ∨ t.Shows r c

section
variable {s t u : Watched World Event} {site : Site} {w : World} {r : Ref .scope}

theorem Proceeds.retains (h : Proceeds s t) : s.state.Retains t.state := h.steps.retains

theorem Watched.Shows.proceed {c : Construct} (h : s.Shows r c) (ht : Proceeds s t) :
    t.Shows r c := by
  cases c with
  | this f =>
      obtain ⟨i, hi⟩ := h
      exact ⟨i, (ht.retains.receiver? (Scopes.lt_of_receiver? hi)).trans hi⟩
  | super methods =>
      obtain ⟨c, hc, later, site, name, earlier, hnotes, hinheriting⟩ := h
      obtain ⟨more, hmore⟩ := ht.notes
      refine ⟨c, (ht.retains.superclass? (Scopes.lt_of_superclass? hc)).trans hc, more ++ later,
        site, name, earlier, ?_, hinheriting⟩
      rw [← hmore, hnotes, List.append_assoc]
  | block => exact World.Open.retain h ht.retains
  | function => exact World.Open.retain h ht.retains

namespace Proceeds

theorem refl (h : s.state.Orderly) : Proceeds s s :=
  ⟨h, .refl _, List.suffix_refl _, fun _ _ _ _ => .inl, fun _ _ => .inl⟩

theorem trans (h : Proceeds s t) (h' : Proceeds t u) : Proceeds s u where
  orderly := h'.orderly
  steps := h.steps.trans h'.steps
  notes := h.notes.trans h'.notes
  noted m site n w hn := by
    rcases h'.noted m site n w hn with hn | ⟨hsteps, hnew⟩
    · exact (h.noted m site n w hn).imp_right fun ⟨hsteps, hn⟩ =>
        ⟨hsteps, { hn with retains := hn.retains.trans h'.retains }⟩
    · exact .inr ⟨h.steps.trans hsteps, hnew⟩
  opened r c hc := by
    rcases h'.opened r c hc with hc | hnew
    · exact (h.opened r c hc).imp_right fun hc => hc.proceed h'
    · exact .inr hnew

instance : Course Proceeds := ⟨fun h => .refl h.orderly, .trans⟩

theorem step (h : s.state.Orderly) (hs : s.state.Step w) : Proceeds s { s with state := w } :=
  ⟨h.step hs, .single hs, List.suffix_refl _, fun _ _ _ _ => .inl, fun _ _ => .inl⟩

/-- A node is noted. -/
theorem noting (h : s.state.Orderly) {m : Moment} {n : Node} (hsite : s.state.Open site.scope)
    (hn : n.Named) : Proceeds s ⟨s.state, .node m site n s.state :: s.notes⟩ where
  orderly := h
  steps := .refl _
  notes := List.suffix_cons _ _
  noted m' site' n' w' hnode := by
    rcases List.mem_cons.mp hnode with he | hold
    · cases he
      exact .inr ⟨.refl _, h, .refl _, hsite, hn⟩
    · exact .inl hold
  opened r c hc := by
    rcases List.mem_cons.mp hc with he | hold
    · cases he
    · exact .inl hold

/-- The beginning of a statement is noted. -/
theorem beginning (h : s.state.Orderly) (home : Ref .interpreter) (text : UnitText) (st : Stmt) :
    Proceeds s ⟨s.state, .began home text st :: s.notes⟩ where
  orderly := h
  steps := .refl _
  notes := List.suffix_cons _ _
  noted m' site' n' w' hnode := by
    rcases List.mem_cons.mp hnode with he | hold
    · cases he
    · exact .inl hold
  opened r c hc := by
    rcases List.mem_cons.mp hc with he | hold
    · cases he
    · exact .inl hold

/-- A scope is made for a construct, which holds what it was made for. -/
theorem opening (h : s.state.Orderly) (hs : s.state.Step w) {c : Construct}
    (hshows : Watched.Shows ⟨w, .opened r c :: s.notes⟩ r c) :
    Proceeds s ⟨w, .opened r c :: s.notes⟩ where
  orderly := h.step hs
  steps := .single hs
  notes := List.suffix_cons _ _
  noted m' site' n' w' hnode := by
    rcases List.mem_cons.mp hnode with he | hold
    · cases he
    · exact .inl hold
  opened r' c' hc := by
    rcases List.mem_cons.mp hc with he | hold
    · cases he
      exact .inr hshows
    · exact .inl hold

end Proceeds

/-- A computation that keeps the world in order; what it returns or raises was made. -/
abbrev Steady {α : Type} (p : Watching α) (s : Watched World Event)
    (Q : α → Watched World Event → Prop) : Prop :=
  Yields Proceeds (fun i t => i.Carries t.state.Made) p s Q

namespace Steady
variable {α β : Type} {p : Watching α} {Q : α → Watched World Event → Prop}

/-- Something is done in one step, or not at all. -/
theorem stepping {q : Eval α} (h : s.state.Orderly)
    (hq : match q s.state with
      | .ok a w => s.state.Step w ∧ Q a { s with state := w }
      | .error i w => w = s.state ∧ ∀ v, i ≠ .signal (.return v)) :
    Steady (Watched.quietly q) s Q := by
  unfold Steady Yields Watched.quietly
  cases hr : q s.state with
  | ok a w =>
      simp only [hr] at hq ⊢
      exact ⟨.step h hq.1, hq.2⟩
  | error i w =>
      simp only [hr] at hq ⊢
      obtain ⟨rfl, hi⟩ := hq
      refine ⟨.refl h, ?_⟩
      cases i with
      | signal c =>
          cases c with
          | «return» v => exact (hi v rfl).elim
          | _ => trivial
      | _ => trivial

/-- Something is asked, and nothing is done. -/
theorem asking {q : Eval α} (h : s.state.Orderly)
    (hq : match q s.state with
      | .ok a w => w = s.state ∧ Q a s
      | .error i w => w = s.state ∧ ∀ v, i ≠ .signal (.return v)) :
    Steady (Watched.quietly q) s Q := by
  refine stepping h ?_
  cases hr : q s.state with
  | ok a w =>
      simp only [hr] at hq ⊢
      obtain ⟨rfl, ha⟩ := hq
      exact ⟨.same ⟨rfl, rfl, rfl, rfl, rfl, fun _ => rfl⟩, ha⟩
  | error i w =>
      simp only [hr] at hq ⊢
      exact hq

theorem modifying {f : World → World} (h : s.state.Orderly) (hs : s.state.Step (f s.state)) :
    Steady (Watched.quietly (modify f)) s fun _ _ => True := stepping h ⟨hs, trivial⟩

theorem fail {token : Token} {cause : RuntimeCause} (h : s.state.Orderly) :
    Steady (Watched.quietly (Eval.fail token cause)) s Q :=
  asking h ⟨rfl, fun _ he => nomatch he⟩

theorem crash {c : Crash} (h : s.state.Orderly) :
    Steady (Watched.quietly (Eval.crash c)) s Q :=
  asking h ⟨rfl, fun _ he => nomatch he⟩

theorem looking {f : World → Watching α} (h : Steady (f s.state) s Q) :
    Steady (Watched.look >>= f) s Q := h

/-- A note of a node. -/
theorem marking {k : Moment} {n : Node} (h : s.state.Orderly) (hsite : s.state.Open site.scope)
    (hn : n.Named)
    (hp : ∀ t, Proceeds s t → t = ⟨s.state, .node k site n s.state :: s.notes⟩ → Steady p t Q) :
    Steady (Watching.mark k site n >>= fun _ => p) s Q := by
  have hmark : Steady (Watching.mark k site n) s fun _ t =>
      t = ⟨s.state, .node k site n s.state :: s.notes⟩ := ⟨.noting h hsite hn, rfl⟩
  exact hmark.bind fun _ t ht he => hp t ht he

end Steady

namespace Watching

/-! ### Scopes and names -/

theorem newScope_steady (h : s.state.Orderly) (c : Construct) (p : Ref .scope)
    (hc : ∀ t r, t.state.Open r → Watched.Shows t r c) :
    Steady (newScope c p) s fun r t => t.state.Open r := by
  have hopen : World.Open { s.state with scopes := s.state.scopes.addChild (some p) }
      s.state.scopes.next :=
    ⟨Nat.lt_of_lt_of_eq (Nat.lt_succ_self _) (Scopes.size_addChild ..).symm,
      Scopes.held_addChild _ _⟩
  exact ⟨.opening h (.newScope p) (hc _ _ hopen), hopen⟩

theorem define_steady (h : s.state.Orderly) {r : Ref .scope} {x : String} {v : Value}
    (hharmless : s.state.scopes.Harmless r x v) (hv : s.state.Made v) :
    Steady (Watched.quietly (Eval.define r x v)) s fun _ t => t.notes = s.notes :=
  Steady.stepping h ⟨.define hharmless hv, rfl⟩

theorem loadAt_steady (h : s.state.Orderly) (r : Ref .scope) (hops : Nat) (x : String) :
    Steady (Watched.quietly (Eval.loadAt r hops x)) s fun v t => t = s ∧ s.state.Made v ∧
      ∃ r', s.state.scopes.ancestor? hops r = some r' ∧ s.state.scopes.find? r' x = some v := by
  refine Steady.asking h ?_
  rcases Eval.loadAt_cases r hops x s.state with ⟨r', v, ha, hv, hr⟩ | ⟨c, hr⟩
  · rw [hr]
    exact ⟨rfl, rfl, h.values r' x v hv, r', ha, hv⟩
  · rw [hr]
    exact ⟨rfl, fun _ he => nomatch he⟩

theorem read_steady (h : s.state.Orderly) (site : Site) (use : NameUse) :
    Steady (Watched.quietly (Eval.read site use)) s fun v t => t = s ∧ s.state.Made v ∧
      Eval.read site use s.state = .ok v s.state := by
  refine Steady.asking h ?_
  rcases Eval.read_cases site use s.state with ⟨r, v, hv, hr⟩ | ⟨i, hi, hr⟩
  · rw [hr]
    exact ⟨rfl, rfl, h.values r _ v hv, rfl⟩
  · rw [hr]
    exact ⟨rfl, hi⟩

/-- What is assigned to has an identifier as its name. -/
theorem assign_steady (h : s.state.Orderly) (site : Site) {use : NameUse} {v : Value}
    (hname : TokenKind.ofWord use.name.lexeme = .identifier) (hv : s.state.Made v) :
    Steady (Watched.quietly (Eval.assign site use v)) s fun _ _ => True := by
  refine Steady.stepping h ?_
  cases hu : use.hops with
  | some hops =>
      cases ha : s.state.scopes.ancestor? hops site.scope with
      | none =>
          unfold Eval.assign
          simp only [hu, Eval.bind_run, Eval.ancestor_run, ha]
          exact ⟨trivial, fun _ he => nomatch he⟩
      | some r =>
          rw [Eval.assign_local site hu v ha]
          exact ⟨.define (.inl hname) hv, trivial⟩
  | none =>
      rw [Eval.assign_global site hu]
      cases hstore : s.state.scopes.store? (s.state.globals site.home) use.name.lexeme v with
      | none => exact ⟨rfl, fun _ he => nomatch he⟩
      | some scopes =>
          obtain ⟨r, -, -, rfl⟩ := Scopes.store?_some hstore
          exact ⟨.define (.inl hname) hv, trivial⟩

/-! ### Objects -/

theorem ofOperator_steady (h : s.state.Orderly) (token : Token)
    {r : Except OperatorFailure Value} (hr : ∀ v, r = .ok v → v.Plain) :
    Steady (Watched.quietly (Eval.ofOperator token r)) s fun v t => t.state.Made v := by
  cases r with
  | ok v => exact Steady.asking h ⟨rfl, World.made_plain (hr v rfl)⟩
  | error e =>
      cases e with
      | error cause => exact Steady.fail h
      | crash c => exact Steady.crash h

theorem checkCall_steady (h : s.state.Orderly) (callee : Value) (paren : Token) (found : Nat) :
    Steady (Watched.quietly (Eval.checkCall callee paren found)) s fun _ t => t = s := by
  refine Steady.asking h ?_
  unfold Eval.checkCall
  rw [Eval.get_run]
  cases s.state.arity? callee with
  | none => exact ⟨rfl, fun _ he => nomatch he⟩
  | some expected =>
      by_cases hne : found ≠ expected
      · simp only [hne, ne_eq, not_false_eq_true, if_true]
        exact ⟨rfl, fun _ he => nomatch he⟩
      · simp only [hne, if_false]
        exact ⟨rfl, trivial⟩

theorem checkFields_steady (h : s.state.Orderly) (object : Value) (name : Token) :
    Steady (Watched.quietly (Eval.checkFields object name)) s fun _ _ => True := by
  cases object with
  | «instance» r => exact Steady.asking h ⟨rfl, trivial⟩
  | module r => exact Steady.asking h ⟨rfl, trivial⟩
  | _ => exact Steady.fail h

theorem setProperty_steady (h : s.state.Orderly) (object : Value) {name : Token} {v : Value}
    (hname : TokenKind.ofWord name.lexeme = .identifier) (hv : s.state.Made v) :
    Steady (Watched.quietly (Eval.setProperty object name v)) s fun _ _ => True := by
  refine Steady.stepping h ?_
  unfold Eval.setProperty
  rw [Eval.get_run]
  cases object with
  | «instance» r => exact ⟨.setField r name.lexeme hv, trivial⟩
  | module r =>
      by_cases hc : s.state.scopes.contains (s.state.globals (s.state.modules.get r).home)
          name.lexeme = true
      · simp only [hc, if_true]
        exact ⟨.define (.inl hname) hv, trivial⟩
      · simp only [hc]
        exact ⟨rfl, fun _ he => nomatch he⟩
  | _ => exact ⟨rfl, fun _ he => nomatch he⟩

theorem newFunction_steady (h : s.state.Orderly) {f : Closure} (hf : s.state.Callable f) :
    Steady (Watched.quietly (Eval.newFunction f)) s fun v t =>
      t.state.Made v := Steady.stepping h ⟨.newFunction hf, trivial⟩

/-- A method that some class defines is bound to an instance of this class or of one that inherits
from it. -/
theorem bound_steady (h : s.state.Orderly) {k : Ref .class} {name : String} {f : Closure}
    {i : Ref .instance} (hi : s.state.Made (.instance i))
    (hk : s.state.Inherits (s.state.instances.get i).classRef k)
    (hf : (s.state.classes.get k).methods.find? name = some f) :
    Steady (bound f i) s fun g t => t.state.Callable g ∧ g.declaration = f.declaration ∧
      g.isInitializer = f.isInitializer ∧ t.state.scopes.receiver? g.scope = some i := by
  have hstep := World.Step.bind hi hk hf
  have hmethod := h.methods k name f hf
  have hreceiver : ((s.state.scopes.addChild (some f.scope)).define s.state.scopes.next "this"
      (.instance i)).receiver? s.state.scopes.next = some i := by
    rw [Scopes.receiver?_eq_some, Scopes.find?_next, if_pos rfl]
  have hsuper : ((s.state.scopes.addChild (some f.scope)).define s.state.scopes.next "this"
      (.instance i)).superclass? s.state.scopes.next = none := Scopes.superclass?_next_of_ne nofun
  refine ⟨.opening h hstep ⟨i, hreceiver⟩, ?_, rfl, rfl, hreceiver⟩
  constructor
  case lt => exact Scopes.lt_of_receiver? hreceiver
  case named => exact hmethod.named
  case kind =>
    refine .inr ⟨?_, i, Prod.ext hreceiver hsuper⟩
    exact hmethod.isInitializer.trans (congrArg (· == "init") hmethod.key.symm)

/-- A method is bound and becomes a function. -/
theorem bind_steady (h : s.state.Orderly) {c : Ref .class} {name : String} {f : Closure}
    {i : Ref .instance} (hi : s.state.Made (.instance i))
    (hc : s.state.Inherits (s.state.instances.get i).classRef c)
    (hf : s.state.method? c name = some f) :
    Steady (bound f i >>= fun g => Watched.quietly (Eval.newFunction g)) s fun v t =>
      t.state.Made v := by
  obtain ⟨k, hk⟩ := h.aged.method?_eq_some.mp hf
  refine (bound_steady h hi (hc.trans hk.inherits) hk.defined).bind fun g t ht hg => ?_
  exact newFunction_steady ht.orderly hg.1

theorem property_steady (h : s.state.Orderly) {object : Value} (name : Token)
    (ho : s.state.Made object) : Steady (property object name) s fun v t => t.state.Made v := by
  refine Steady.looking ?_
  cases object with
  | «instance» r =>
      cases hv : (s.state.instances.get r).fields.find? name.lexeme with
      | some v =>
          simp only [hv]
          exact .pure (.refl h) (h.fields r _ v hv)
      | none =>
          cases hm : s.state.method? (s.state.instances.get r).classRef name.lexeme with
          | some f =>
              simp only [hv, hm]
              exact bind_steady h ho .refl hm
          | none =>
              simp only [hv, hm]
              exact Steady.fail h
  | module r =>
      cases hv : s.state.scopes.find? (s.state.globals (s.state.modules.get r).home)
          name.lexeme with
      | some v =>
          simp only [hv]
          exact .pure (.refl h) (h.values _ _ v hv)
      | none =>
          simp only [hv]
          exact Steady.fail h
  | _ => exact Steady.fail h

theorem superMethod_steady (h : s.state.Orderly) (site : Site) (use : NameUse) (method : Token) :
    Steady (superMethod site use method) s fun v t => t.state.Made v := by
  unfold superMethod
  cases use.hops with
  | none => exact Steady.crash h
  | some hops =>
      refine (loadAt_steady h site.scope hops "super").bind ?_
      rintro c t - ⟨rfl, -, b, hb, hc⟩
      refine (loadAt_steady h site.scope (hops - 1) "this").bind ?_
      rintro i u - ⟨rfl, hi, a, ha, hthis⟩
      cases c with
      | «class» c =>
          cases i with
          | «instance» i =>
              refine Steady.looking ?_
              cases hm : u.state.method? c method.lexeme with
              | some f =>
                  exact bind_steady h hi (h.super_inherits ha hb
                    (Scopes.receiver?_eq_some.mpr hthis) (Scopes.superclass?_eq_some.mpr hc)) hm
              | none => exact Steady.fail h
          | _ => exact Steady.crash h
      | _ => exact Steady.crash h

/-- The superclass of a class is read where the class statement stands. -/
theorem superclass_steady (h : s.state.Orderly) (hsite : s.state.Open site.scope) {use : NameUse}
    (hn : (Node.expr (.name use)).Named) :
    Steady (superclass site use) s fun c t => t.state.Made (.class c) ∧
      t.notes = .node .reached site (.expr (.name use)) s.state :: s.notes ∧
      Eval.read site use s.state = .ok (.class c) s.state := by
  refine Steady.marking h hsite hn fun t ht hts => ?_
  subst hts
  rcases Eval.read_cases site use s.state with ⟨r, v, hv, hr⟩ | ⟨i, hi, hr⟩
  · unfold Steady Yields Watched.quietly
    simp only [Eval.superclass_run, hr]
    cases v with
    | «class» c => exact ⟨.refl h, h.values r _ _ hv, rfl, rfl⟩
    | _ => exact ⟨.refl h, trivial⟩
  · unfold Steady Yields Watched.quietly
    simp only [Eval.superclass_run, hr]
    refine ⟨.refl h, ?_⟩
    cases i with
    | signal c =>
        cases c with
        | «return» v => exact (hi v rfl).elim
        | _ => trivial
    | _ => trivial

/-- A scope is made for the superclass, right after it was read. -/
theorem inherit_steady (h : s.state.Orderly) {c : Ref .class} (hc : s.state.Made (.class c))
    {p : Ref .scope} {name : Token} {methods : List FunctionDecl}
    (hinheriting : Inheriting s.notes site name methods c)
    {k : Ref .scope → Watching Unit} (hk : ∀ r t, Proceeds s t →
      t.state.scopes.held r = (none, some c) → Steady (k r) t fun _ _ => True) :
    Steady (do
      let scope ← newScope (.super methods) p
      Watched.quietly (Eval.define scope "super" (.class c))
      k scope) s fun _ _ => True := by
  have hsuper : ((s.state.scopes.addChild (some p)).define s.state.scopes.next "super"
      (.class c)).superclass? s.state.scopes.next = some c := by
    rw [Scopes.superclass?_eq_some, Scopes.find?_next, if_pos rfl]
  have hinherit : Steady (do
      let scope ← newScope (.super methods) p
      Watched.quietly (Eval.define scope "super" (.class c))
      Pure.pure scope) s fun r t => t.state.scopes.held r = (none, some c) := by
    refine ⟨.opening h (.inherit p hc)
      ⟨c, hsuper, [], site, name, s.notes, rfl, hinheriting⟩, ?_⟩
    exact Prod.ext (Scopes.receiver?_next_of_ne nofun) hsuper
  simpa only [bind_assoc, pure_bind] using hinherit.bind hk

/-- A class is made when the scope of its methods is known. -/
theorem makeClass_steady (h : s.state.Orderly) {name : Token} {parent : Option (Ref .class)}
    {methods : List FunctionDecl} {r : Ref .scope} (home : Ref .interpreter)
    (hname : TokenKind.ofWord name.lexeme = .identifier)
    (hparent : ∀ c, parent = some c → s.state.Made (.class c))
    (hmethods : ∀ f ∈ methods, (Node.function f).Named) (hr : r.index < s.state.scopes.size)
    (hheld : s.state.scopes.held r = (none, parent)) :
    Steady (do
      let c ← Watched.quietly (Eval.newClass ⟨name.lexeme, parent, methods.foldl (fun ms d =>
        ms.insert d.displayName ⟨d, r, home, d.displayName == "init"⟩) {}⟩)
      Watched.quietly (Eval.define site.scope name.lexeme c)) s fun _ _ => True := by
  have hclass : Steady (Watched.quietly (Eval.newClass ⟨name.lexeme, parent, methods.foldl
      (fun ms d => ms.insert d.displayName ⟨d, r, home, d.displayName == "init"⟩) {}⟩)) s
      fun v t => t.state.Made v := by
    refine Steady.stepping h ⟨.newClass hparent fun x f hf => ?_, ?_⟩
    · rcases find?_methods (fun d => ⟨d, r, home, d.displayName == "init"⟩) hf with
        hf | ⟨d, hd, hx, rfl⟩
      · cases hf
      · exact ⟨hx, by rw [← hx], hr, hheld, hmethods d hd⟩
    · exact Nat.lt_of_lt_of_eq (Nat.lt_succ_self _) (Arena.size_add ..).symm
  exact hclass.bind fun c t ht hc => (define_steady ht.orderly (.inl hname) hc).trivially

/-- A class binds its name before its methods are made. -/
theorem declareClass_steady (h : s.state.Orderly) (hsite : s.state.Open site.scope) {name : Token}
    {parent : Option (Ref .class)} {methods : List FunctionDecl}
    (hname : TokenKind.ofWord name.lexeme = .identifier)
    (hmethods : ∀ f ∈ methods, (Node.function f).Named)
    (hparent : ∀ c, parent = some c →
      s.state.Made (.class c) ∧ Inheriting s.notes site name methods c) :
    Steady (declareClass site name parent methods) s fun _ _ => True := by
  refine (define_steady h (v := .nil) (.inl hname) trivial).bind fun _ t ht hnotes => ?_
  have hopen := hsite.retain ht.retains
  cases parent with
  | none =>
      exact makeClass_steady ht.orderly site.home hname (fun _ he => nomatch he) hmethods hopen.lt
        hopen.held
  | some c =>
      obtain ⟨hc, hinheriting⟩ := hparent c rfl
      have hct := hc.retain ht.retains
      refine inherit_steady ht.orderly hct (hnotes ▸ hinheriting) fun r u hu hheld => ?_
      refine makeClass_steady hu.orderly site.home hname ?_ hmethods ?_ hheld
      · intro c' he
        cases he
        exact hct.retain hu.retains
      · exact Scopes.lt_of_superclass? (congrArg Prod.snd hheld)

end Watching
end
end Treewalk
