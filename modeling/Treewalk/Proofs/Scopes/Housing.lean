import Treewalk.Proofs.Scopes.Placement

/-!
# Positions in a statement

What is known in a frame is declared by its construct. Where a frame awaits the initial value of a
name, the position stands in that initial value; and if the frame is not the innermost one, it stands
in a lambda expression there.
-/
namespace Treewalk

/-- The construct of a frame declares all that is known in the frame, and nothing twice. -/
structure Frame.Housed (f : Frame) : Prop where
  bound : ∀ d ∈ f.bound, d ∈ f.construct.declares
  pending : ∀ x, f.pending = some x → x ∈ f.construct.declares.map Prod.fst
  distinct : f.construct.Distinct

theorem Frame.Housed.knows {f : Frame} (h : f.Housed) {x : String} (hx : f.Knows x) :
    x ∈ f.construct.declares.map Prod.fst := by
  rcases hx with hx | hx
  · obtain ⟨d, hd, rfl⟩ := List.mem_map.mp hx
    exact List.mem_map_of_mem (h.bound d hd)
  · exact h.pending x hx

namespace Position

/-- What stands at a position belongs to the constructs around it. -/
structure Housed (q : Position) : Prop where
  frames : ∀ f ∈ q.frames, f.Housed
  stmt : ∀ t, q.node = .stmt t → ∀ f outer, q.frames = f :: outer →
    ∀ d ∈ t.declares, d ∈ f.construct.declares

end Position

theorem housed_receiver (f : FunctionDecl) : (Frame.receiver f).Housed :=
  ⟨fun _ hd => hd, fun _ hx => (nomatch hx), List.pairwise_singleton _ _⟩

theorem housed_parent (fs : List FunctionDecl) : (Frame.parent fs).Housed :=
  ⟨fun _ hd => hd, fun _ hx => (nomatch hx), List.pairwise_singleton _ _⟩

theorem housed_declaring {frames : List Frame} {ds : List (String × Mutability)}
    (h : ∀ f ∈ frames, f.Housed)
    (hds : ∀ f outer, frames = f :: outer → ∀ d ∈ ds, d ∈ f.construct.declares) :
    ∀ f ∈ declaring ds frames, f.Housed := by
  cases frames with
  | nil => exact h
  | cons f outer =>
      intro g hg
      rcases List.mem_cons.mp hg with rfl | hg
      · have hf := h f (List.mem_cons_self ..)
        refine ⟨fun d hd => ?_, hf.pending, hf.distinct⟩
        rcases List.mem_append.mp hd with hd | hd
        · exact hf.bound d hd
        · exact hds f outer rfl d hd
      · exact h g (List.mem_cons_of_mem _ hg)

theorem housed_beginning {frames : List Frame} {name : String} (h : ∀ f ∈ frames, f.Housed)
    (hname : ∀ f outer, frames = f :: outer → name ∈ f.construct.declares.map Prod.fst) :
    ∀ f ∈ beginning name frames, f.Housed := by
  cases frames with
  | nil => exact h
  | cons f outer =>
      intro g hg
      rcases List.mem_cons.mp hg with rfl | hg
      · have hf := h f (List.mem_cons_self ..)
        refine ⟨hf.bound, fun x hx => ?_, hf.distinct⟩
        cases hx
        exact hname f outer rfl
      · exact h g (List.mem_cons_of_mem _ hg)

/-- A statement among the parts of a node declares nothing. -/
theorem Position.Fits.part {K : List String} {frames : List Frame} {n : Node} {t : Stmt}
    (h : Position.Fits K ⟨frames, n⟩) (ht : .stmt t ∈ n.parts) : t.declares = [] := by
  cases n with
  | function f => cases ht
  | expr e => cases e <;> simp [Node.parts, Expr.parts] at ht
  | stmt s =>
      cases s with
      | «if» condition thenBranch elseBranch =>
          have hparts : t = thenBranch ∨ t ∈ elseBranch := by
            simpa [Node.parts, Stmt.parts] using ht
          rcases hparts with rfl | hb
          · exact h.1
          · exact h.2 t hb
      | «while» condition body increment =>
          have hparts : t = body := by simpa [Node.parts, Stmt.parts] using ht
          rw [hparts]
          exact h
      | «class» name superclass methods =>
          cases superclass <;> simp [Node.parts, Stmt.parts] at ht
      | _ => simp [Node.parts, Stmt.parts] at ht

theorem Position.Housed.inner {p q : Position} {K : List String} (h : p.Housed) (hfits : p.Fits K)
    (hi : Inner p q) : q.Housed := by
  cases hi with
  | part hm =>
      refine ⟨h.frames, fun t ht f outer _ d hd => ?_⟩
      simp only at ht
      subst ht
      rw [hfits.part hm] at hd
      cases hd
  | @initial frames mutability name e =>
      refine ⟨housed_beginning h.frames fun f outer he => ?_, fun t ht => nomatch ht⟩
      exact List.mem_map_of_mem (f := Prod.fst)
        (h.stmt _ rfl f outer he (name.lexeme, mutability) (List.mem_singleton_self _))
  | @block frames before after s =>
      constructor
      · intro f hf
        rcases List.mem_cons.mp hf with rfl | hf
        · refine ⟨fun d hd => ?_, fun _ hx => (nomatch hx), hfits⟩
          change d ∈ declarations (before ++ s :: after)
          unfold declarations
          rw [List.flatMap_append]
          exact List.mem_append_left _ hd
        · exact h.frames f hf
      · intro t ht f outer he d hd
        cases ht
        cases he
        change d ∈ declarations (before ++ s :: after)
        unfold declarations
        rw [List.flatMap_append, List.flatMap_cons]
        exact List.mem_append_right _ (List.mem_append_left _ hd)
  | declared =>
      exact ⟨housed_declaring h.frames (h.stmt _ rfl), fun t ht => nomatch ht⟩
  | @body frames f before after s hb =>
      have hdeclares : (Construct.function f).declares =
          f.bindings ++ declarations before ++ (s.declares ++ declarations after) := by
        change f.bindings ++ declarations f.body = _
        rw [hb]
        unfold declarations
        rw [List.flatMap_append, List.flatMap_cons, List.append_assoc]
      constructor
      · intro g hg
        rcases List.mem_cons.mp hg with rfl | hg
        · refine ⟨fun d hd => ?_, fun _ hx => (nomatch hx), hfits⟩
          rw [hdeclares]
          exact List.mem_append_left _ hd
        · exact h.frames g hg
      · intro t ht g outer he d hd
        cases ht
        cases he
        rw [hdeclares]
        exact List.mem_append_right _ (List.mem_append_left _ hd)
  | @method frames name methods f _ =>
      refine ⟨fun g hg => ?_, fun t ht => nomatch ht⟩
      rcases List.mem_cons.mp hg with rfl | hg
      · exact housed_receiver f
      · exact housed_declaring h.frames (h.stmt _ rfl) g hg
  | @inherited frames name use methods f _ =>
      refine ⟨fun g hg => ?_, fun t ht => nomatch ht⟩
      rcases List.mem_cons.mp hg with rfl | hg
      · exact housed_receiver f
      · rcases List.mem_cons.mp hg with rfl | hg
        · exact housed_parent methods
        · exact housed_declaring h.frames (h.stmt _ rfl) g hg

/-- All positions in a statement of a unit are housed. -/
theorem Within.housed {st : Stmt} {q : Position} {K : List String}
    (h : Everywhere (Position.Fits K) ⟨[], .stmt st⟩) (hq : Within ⟨[], .stmt st⟩ q) :
    q.Housed := by
  induction hq with
  | refl => exact ⟨fun _ hf => (nomatch hf), fun _ _ _ _ he => nomatch he⟩
  | tail hp hi ih => exact ih.inner (h _ hp) hi

/-- Outside all frames stand only the statement itself and statements that declare nothing. -/
theorem Within.outside {st : Stmt} {q : Position} {t : Stmt} {K : List String}
    (h : Everywhere (Position.Fits K) ⟨[], .stmt st⟩) (hq : Within ⟨[], .stmt st⟩ q)
    (hframes : q.frames = []) (ht : q.node = .stmt t) : t = st ∨ t.declares = [] := by
  induction hq with
  | refl =>
      cases ht
      exact .inl rfl
  | tail hp hi _ =>
      refine .inr ?_
      cases hi with
      | part hm =>
          simp only at ht
          subst ht
          exact (h _ hp).part hm
      | initial => cases ht
      | block => cases hframes
      | declared => cases ht
      | body => cases hframes
      | method => cases hframes
      | inherited => cases hframes

/-- Statements stand where no initial value is being made. -/
theorem Within.ready {st : Stmt} {q : Position} (hq : Within ⟨[], .stmt st⟩ q) :
    q.node.Ready q.frames := by
  induction hq with
  | refl => trivial
  | tail _ hi ih =>
      cases hi with
      | part hm => exact ih.part hm
      | initial => trivial
      | @block frames => exact settled_new _ _ frames
      | declared => trivial
      | @body frames => exact settled_new _ _ frames
      | method => trivial
      | inherited => trivial

/-- Inside an expression, other scopes are those of lambda expressions. -/
theorem Within.lambda {frames : List Frame} {e : Expr} {q : Position}
    (hq : Within ⟨frames, .expr e⟩ q) :
    (q.frames = frames ∧ ∃ e', q.node = .expr e') ∨
      ∃ f, Within ⟨frames, .expr e⟩ ⟨frames, .expr (.lambda f)⟩ ∧
        Within ⟨frames, .function f⟩ q := by
  induction hq with
  | refl => exact .inl ⟨rfl, e, rfl⟩
  | @tail p q hp hi ih =>
      rcases ih with ⟨hframes, e', he'⟩ | ⟨f, hf, hpf⟩
      · obtain ⟨pframes, pnode⟩ := p
        simp only at hframes he'
        subst hframes he'
        cases hi with
        | @part _ _ m hm =>
            cases m with
            | expr e'' => exact .inl ⟨rfl, e'', rfl⟩
            | stmt t => cases e' <;> simp [Node.parts, Expr.parts] at hm
            | function f =>
                have hlambda : e' = .lambda f := by
                  cases e' <;> simp [Node.parts, Expr.parts] at hm
                  rw [hm]
                subst hlambda
                exact .inr ⟨f, hp, .refl⟩
      · exact .inr ⟨f, hf, hpf.tail hi⟩

/-- A position stands in the initial value of a declaration of a name in the frame that is so many
hops outward. -/
def InInitial (st : Stmt) (q : Position) (hops : Nat) (name : String) : Prop :=
  ∃ frames mutability token e, Within ⟨[], .stmt st⟩ ⟨frames, .stmt (.var mutability token (some e))⟩ ∧
    token.lexeme = name ∧ q.frames.drop hops = beginning name frames ∧
    Within ⟨beginning name frames, .expr e⟩ q

theorem InInitial.inner {st : Stmt} {p q : Position} {n m : Nat} {name : String}
    (h : InInitial st p n name) (hi : Inner p q) (hd : q.frames.drop m = p.frames.drop n) :
    InInitial st q m name := by
  obtain ⟨frames, mutability, token, e, hvar, hname, hframes, hwithin⟩ := h
  exact ⟨frames, mutability, token, e, hvar, hname, hd.trans hframes, hwithin.tail hi⟩

theorem drop_succ_declaring (ds : List (String × Mutability)) (frames : List Frame) (n : Nat) :
    (declaring ds frames).drop (n + 1) = frames.drop (n + 1) := by cases frames <;> rfl

theorem drop_succ_beginning (name : String) (frames : List Frame) (n : Nat) :
    (beginning name frames).drop (n + 1) = frames.drop (n + 1) := by cases frames <;> rfl

/-- What is declared in a settled frame leaves it settled, so a pending name is further outward. -/
theorem pending_declaring {frames : List Frame} {ds : List (String × Mutability)} {hops : Nat}
    {f : Frame} {name : String} (hsettled : Settled frames) (hp : f.pending = some name)
    (hf : (declaring ds frames)[hops]? = some f) :
    ∃ n, hops = n + 1 ∧ frames[n + 1]? = some f := by
  cases frames with
  | nil => cases hf
  | cons f₀ outer =>
      cases hops with
      | zero =>
          cases hf
          rw [show f₀.pending = none from hsettled] at hp
          cases hp
      | succ n => exact ⟨n, rfl, hf⟩

/-- A frame that awaits the initial value of a name surrounds just that. -/
theorem Within.initial {st : Stmt} {q : Position} (hq : Within ⟨[], .stmt st⟩ q) {hops : Nat}
    {f : Frame} {name : String} (hf : q.frames[hops]? = some f) (hp : f.pending = some name) :
    InInitial st q hops name := by
  induction hq generalizing hops f with
  | refl => cases hf
  | @tail p q hpq hi ih =>
      cases hi with
      | part hm => exact (ih hf hp).inner (.part hm) rfl
      | @initial frames mutability token e =>
          cases hops with
          | zero =>
              cases frames with
              | nil => cases hf
              | cons f₀ outer =>
                  cases hf
                  cases hp
                  exact ⟨_, mutability, token, e, hpq, rfl, rfl, .refl⟩
          | succ n =>
              have hsame : frames[n + 1]? = some f := by
                cases frames with
                | nil => cases hf
                | cons f₀ outer => exact hf
              exact (ih hsame hp).inner .initial (drop_succ_beginning token.lexeme frames n)
      | block =>
          cases hops with
          | zero =>
              cases hf
              cases hp
          | succ n => exact (ih hf hp).inner .block rfl
      | declared =>
          obtain ⟨n, rfl, hsame⟩ := pending_declaring (Within.ready hpq) hp hf
          exact (ih hsame hp).inner .declared (drop_succ_declaring ..)
      | body hb =>
          cases hops with
          | zero =>
              cases hf
              cases hp
          | succ n => exact (ih hf hp).inner (.body hb) rfl
      | method hmem =>
          cases hops with
          | zero =>
              cases hf
              cases hp
          | succ n =>
              obtain ⟨m, rfl, hsame⟩ := pending_declaring (Within.ready hpq) hp hf
              exact (ih hsame hp).inner (.method hmem) (drop_succ_declaring ..)
      | inherited hmem =>
          cases hops with
          | zero =>
              cases hf
              cases hp
          | succ n =>
              cases n with
              | zero =>
                  cases hf
                  cases hp
              | succ n =>
                  obtain ⟨m, rfl, hsame⟩ := pending_declaring (Within.ready hpq) hp hf
                  exact (ih hsame hp).inner (.inherited hmem) (drop_succ_declaring ..)

end Treewalk
