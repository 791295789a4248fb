import Treewalk.Proofs.Scopes.Units

/-!
# Where signals may stand

In an accepted unit `break` and `continue` stand in loops and `return` stands in functions: name
resolution knows what surrounds a construct, restores it when the construct ends, and reports every
other place. A loop does not reach into the functions in it.
-/
namespace Treewalk

/-- A node can stand where it is in a loop or not, and in a function or not. -/
inductive Node.Legal : Bool → Bool → Node → Prop
  | expr {inLoop inFunction : Bool} {e : Expr} :
      (∀ m ∈ e.parts, Node.Legal inLoop inFunction m) → Node.Legal inLoop inFunction (.expr e)
  | expression {inLoop inFunction : Bool} {e : Expr} : Node.Legal inLoop inFunction (.expr e) →
      Node.Legal inLoop inFunction (.stmt (.expression e))
  | print {inLoop inFunction : Bool} {e : Expr} : Node.Legal inLoop inFunction (.expr e) →
      Node.Legal inLoop inFunction (.stmt (.print e))
  | var {inLoop inFunction : Bool} {mutability : Mutability} {name : Token}
      {initial : Option Expr} : (∀ e ∈ initial, Node.Legal inLoop inFunction (.expr e)) →
      Node.Legal inLoop inFunction (.stmt (.var mutability name initial))
  | block {inLoop inFunction : Bool} {body : List Stmt} :
      (∀ st ∈ body, Node.Legal inLoop inFunction (.stmt st)) →
      Node.Legal inLoop inFunction (.stmt (.block body))
  | if {inLoop inFunction : Bool} {condition : Expr} {thenBranch : Stmt}
      {elseBranch : Option Stmt} : Node.Legal inLoop inFunction (.expr condition) →
      Node.Legal inLoop inFunction (.stmt thenBranch) →
      (∀ st ∈ elseBranch, Node.Legal inLoop inFunction (.stmt st)) →
      Node.Legal inLoop inFunction (.stmt (.if condition thenBranch elseBranch))
  | while {inLoop inFunction : Bool} {condition : Expr} {body : Stmt} {increment : Option Expr} :
      Node.Legal true inFunction (.expr condition) → Node.Legal true inFunction (.stmt body) →
      (∀ e ∈ increment, Node.Legal true inFunction (.expr e)) →
      Node.Legal inLoop inFunction (.stmt (.while condition body increment))
  | break {inFunction : Bool} {keyword : Token} :
      Node.Legal true inFunction (.stmt (.break keyword))
  | continue {inFunction : Bool} {keyword : Token} :
      Node.Legal true inFunction (.stmt (.continue keyword))
  | return {inLoop : Bool} {keyword : Token} {value : Option Expr} :
      (∀ e ∈ value, Node.Legal inLoop true (.expr e)) →
      Node.Legal inLoop true (.stmt (.return keyword value))
  | declaration {inLoop inFunction : Bool} {f : FunctionDecl} :
      Node.Legal inLoop inFunction (.function f) → Node.Legal inLoop inFunction (.stmt (.function f))
  | class {inLoop inFunction : Bool} {name : Token} {superclass : Option NameUse}
      {methods : List FunctionDecl} :
      (∀ f ∈ methods, Node.Legal inLoop inFunction (.function f)) →
      Node.Legal inLoop inFunction (.stmt (.class name superclass methods))
  | importModule {inLoop inFunction : Bool} {keyword name : Token} {as : Option Token} :
      Node.Legal inLoop inFunction (.stmt (.importModule keyword name as))
  | function {inLoop inFunction : Bool} {f : FunctionDecl} :
      (∀ st ∈ f.body, Node.Legal false true (.stmt st)) → Node.Legal inLoop inFunction (.function f)

/-- The body of a function is legal, wherever the function stands. -/
def FunctionDecl.Legal (f : FunctionDecl) : Prop := ∀ st ∈ f.body, Node.Legal false true (.stmt st)

theorem Node.Legal.body {inLoop inFunction : Bool} {f : FunctionDecl}
    (h : Node.Legal inLoop inFunction (.function f)) : f.Legal := by
  cases h with
  | function hbody => exact hbody

namespace Scoping
variable (s : Scoping)

@[simp] theorem inLoop_declare (token : Token) (name : String) :
    (s.declare token name).inLoop = s.inLoop := by
  unfold declare
  split <;> split <;> rfl

@[simp] theorem function_declare (token : Token) (name : String) :
    (s.declare token name).function = s.function := by
  unfold declare
  split <;> split <;> rfl

@[simp] theorem inLoop_define (name : String) : (s.define name).inLoop = s.inLoop := by
  unfold define
  split <;> rfl

@[simp] theorem function_define (name : String) : (s.define name).function = s.function := by
  unfold define
  split <;> rfl

@[simp] theorem inLoop_setMutability (name : String) (m : Mutability) :
    (s.setMutability name m).inLoop = s.inLoop := by
  unfold setMutability
  dsimp only
  split <;> rfl

@[simp] theorem function_setMutability (name : String) (m : Mutability) :
    (s.setMutability name m).function = s.function := by
  unfold setMutability
  dsimp only
  split <;> rfl

end Scoping

namespace Resolve
open Scoping
variable {α β : Type}

/-- What surrounds a construct is restored; and if nothing is reported, something holds of the
result, depending on whether the construct stands in a loop and in a function. -/
def Checks (P : Bool → Bool → α → Prop) (p : Resolve α) : Prop := ∀ s a s', p s = .ok a s' →
  s'.inLoop = s.inLoop ∧ s'.function = s.function ∧
    (s'.Clean → s.Clean ∧ P s.inLoop (decide (s.function ≠ .none)) a)

namespace Checks
variable {P Q : Bool → Bool → α → Prop}

theorem pure {a : α} (h : ∀ inLoop inFunction, P inLoop inFunction a) :
    Checks P (Pure.pure a) := by
  intro s b s' hr
  cases hr
  exact ⟨rfl, rfl, fun hc => ⟨hc, h _ _⟩⟩

theorem throw (e : Unit) : Checks P (MonadExcept.throw e : Resolve α) := fun _ _ _ h => nomatch h

theorem bind {p : Resolve β} {f : β → Resolve α} {R : Bool → Bool → β → Prop} (hp : Checks R p)
    (hf : ∀ b, Checks (fun l f a => R l f b → P l f a) (f b)) : Checks P (p >>= f) := by
  intro s a s' hr
  obtain ⟨b, t, hb, hr⟩ := Watched.bind_ok hr
  obtain ⟨hloop, hfunction, hclean⟩ := hp s b t hb
  obtain ⟨hloop', hfunction', hclean'⟩ := hf b t a s' hr
  refine ⟨hloop'.trans hloop, hfunction'.trans hfunction, fun hc => ?_⟩
  obtain ⟨hct, himplies⟩ := hclean' hc
  obtain ⟨hcs, hb⟩ := hclean hct
  rw [hloop, hfunction] at himplies
  exact ⟨hcs, himplies hb⟩

theorem weaken (h : Checks P p) (hPQ : ∀ l f a, P l f a → Q l f a) : Checks Q p := by
  intro s a s' hr
  obtain ⟨hloop, hfunction, hclean⟩ := h s a s' hr
  exact ⟨hloop, hfunction, fun hc => ⟨(hclean hc).1, hPQ _ _ _ (hclean hc).2⟩⟩

/-- A step that changes neither the surroundings nor takes errors back. -/
theorem step {f : Scoping → Scoping} (hloop : ∀ s, (f s).inLoop = s.inLoop)
    (hfunction : ∀ s, (f s).function = s.function) (hclean : ∀ s, (f s).Clean → s.Clean) :
    Checks (fun _ _ _ => True) (modify f) := by
  intro s a s' hr
  cases hr
  exact ⟨hloop s, hfunction s, fun hc => ⟨hclean s hc, trivial⟩⟩

/-- After an error anything holds. -/
theorem report {P : Bool → Bool → Unit → Prop} (token : Token) (error : StaticError) :
    Checks P (Resolve.report token error) := by
  intro s a s' hr
  cases hr
  exact ⟨rfl, rfl, fun hc => (not_clean_report s token error hc).elim⟩

/-- An error is reported if a condition holds; after it the condition does not hold. -/
theorem check {c : Scoping → Prop} [DecidablePred c] {P : Bool → Bool → Unit → Prop}
    (token : Token) (error : StaticError)
    (h : ∀ s, ¬c s → P s.inLoop (decide (s.function ≠ .none)) ()) :
    Checks P (do if c (← get) then Resolve.report token error else Pure.pure ()) := by
  intro s a s' hr
  obtain ⟨_, _, hget, hr⟩ := Watched.bind_ok hr
  cases hget
  by_cases hc : c s
  · simp only [hc, if_true] at hr
    exact report token error s a s' hr
  · simp only [hc, if_false] at hr
    cases hr
    exact ⟨rfl, rfl, fun hclean => ⟨hclean, h s hc⟩⟩

theorem mapM {f : β → Resolve α} {bs : List β} (h : ∀ b ∈ bs, Checks P (f b)) :
    Checks (fun l f as => ∀ a ∈ as, P l f a) (bs.mapM f) := by
  induction bs with
  | nil => exact pure fun _ _ a ha => nomatch ha
  | cons b bs ih =>
      rw [List.mapM_cons]
      refine bind (h b (List.mem_cons_self ..)) fun a => ?_
      refine bind (ih fun b hb => h b (List.mem_cons_of_mem _ hb)) fun as => ?_
      exact pure fun _ _ has ha => List.forall_mem_cons.mpr ⟨ha, has⟩

theorem optional {f : β → Resolve α} {o : Option β} (h : ∀ b ∈ o, Checks P (f b)) :
    Checks (fun l f o' => ∀ a ∈ o', P l f a) (o.mapM f) := by
  cases o with
  | none => exact pure fun _ _ a ha => nomatch ha
  | some b =>
      refine bind (h b rfl) fun a => pure fun _ _ ha a' ha' => ?_
      cases ha'
      exact ha

theorem forM {f : β → Resolve Unit} (h : ∀ b, Checks (fun _ _ _ => True) (f b)) (bs : List β) :
    Checks (fun _ _ _ => True) (bs.forM f) := by
  induction bs with
  | nil => exact pure fun _ _ => trivial
  | cons b bs ih => exact bind (h b) fun _ => ih.weaken fun _ _ _ _ _ => trivial

/-- An error is reported if a condition holds, and resolution goes on. -/
theorem checking {c : Scoping → Prop} [DecidablePred c] {R : Bool → Bool → Prop} {p : Resolve α}
    {token : Token} {error : StaticError}
    (hR : ∀ s, ¬c s → R s.inLoop (decide (s.function ≠ .none)))
    (hp : Checks (fun l f a => R l f → P l f a) p) :
    Checks P (get >>= fun s => if c s then Resolve.report token error >>= fun _ => p else p) := by
  intro s a s' hr
  obtain ⟨_, _, hget, hr⟩ := Watched.bind_ok hr
  cases hget
  by_cases hc : c s
  · simp only [hc, if_true] at hr
    obtain ⟨_, t, hreport, hr⟩ := Watched.bind_ok hr
    cases hreport
    obtain ⟨hloop, hfunction, hclean⟩ := hp _ a s' hr
    exact ⟨hloop, hfunction, fun h => (not_clean_report s token error (hclean h).1).elim⟩
  · simp only [hc, if_false] at hr
    obtain ⟨hloop, hfunction, hclean⟩ := hp s a s' hr
    exact ⟨hloop, hfunction, fun h => ⟨(hclean h).1, (hclean h).2 (hR s hc)⟩⟩

/-- An error may be reported first. -/
theorem reporting {c : Prop} [Decidable c] {p : Resolve α} {token : Token} {error : StaticError}
    (h : Checks P p) : Checks P (if c then Resolve.report token error >>= fun _ => p else p) := by
  by_cases hc : c
  · rw [if_pos hc]
    exact bind (report (P := fun _ _ _ => True) token error) fun _ => h.weaken fun _ _ _ ha _ => ha
  · rw [if_neg hc]
    exact h

/-- Something between a change of the surroundings and the change back. -/
theorem around {enter : Scoping → Scoping} {leave : Scoping → Scoping → Scoping} {p : Resolve α}
    (h : Checks P p) (henter : ∀ s, (enter s).Clean → s.Clean)
    (hleave : ∀ s t, (leave s t).Clean → t.Clean)
    (hback : ∀ s t, t.inLoop = (enter s).inLoop → t.function = (enter s).function →
      (leave s t).inLoop = s.inLoop ∧ (leave s t).function = s.function)
    (hPQ : ∀ s a, P (enter s).inLoop (decide ((enter s).function ≠ .none)) a →
      Q s.inLoop (decide (s.function ≠ .none)) a) :
    Checks Q (do
      let before ← get
      modify enter
      let a ← p
      modify (leave before)
      return a) := by
  intro s a s' hr
  obtain ⟨_, _, hget, hr⟩ := Watched.bind_ok hr
  cases hget
  obtain ⟨_, _, hentered, hr⟩ := Watched.bind_ok hr
  cases hentered
  obtain ⟨b, t, hb, hr⟩ := Watched.bind_ok hr
  cases hr
  obtain ⟨hloop, hfunction, hclean⟩ := h _ _ _ hb
  obtain ⟨hloop', hfunction'⟩ := hback s t hloop hfunction
  refine ⟨hloop', hfunction', fun hc => ?_⟩
  obtain ⟨hcs, ha⟩ := hclean (hleave s t hc)
  exact ⟨henter s hcs, hPQ s _ ha⟩

theorem inScope {names : List String} {p : Resolve α} (h : Checks P p) :
    Checks P (Resolve.inScope names p) := by
  refine bind (step (fun _ => rfl) (fun _ => rfl) fun _ => id) fun _ => bind h fun a => ?_
  refine bind (step (fun _ => rfl) (fun _ => rfl) fun _ => id) fun _ => ?_
  exact pure fun _ _ _ ha _ => ha

/-- A function is resolved where there is a function and no loop. -/
theorem inFunction {context : FunctionContext} {p : Resolve α} (hcontext : context ≠ .none)
    (h : Checks P p) : Checks (fun _ _ a => P false true a) (Resolve.inFunction context p) := by
  refine around h (fun _ => id) (fun _ _ => id) (fun _ _ _ _ => ⟨rfl, rfl⟩) fun s a ha => ?_
  simpa only [hcontext, ne_eq, not_false_eq_true, decide_true] using ha

theorem inLoop {p : Resolve α} (h : Checks P p) :
    Checks (fun _ f a => P true f a) (Resolve.inLoop p) :=
  around h (fun _ => id) (fun _ _ => id) (fun _ _ _ hf => ⟨rfl, hf⟩) fun _ _ ha => ha

theorem inClass {context : ClassContext} {p : Resolve α} (h : Checks P p) :
    Checks P (Resolve.inClass context p) :=
  around h (fun _ => id) (fun _ _ => id) (fun _ _ hl hf => ⟨hl, hf⟩) fun _ _ ha => ha

theorem initializing {name : String} {p : Resolve α} (h : Checks P p) :
    Checks P (Resolve.initializing name p) := by
  rw [Visiting.initializing_eq]
  refine around h (fun s => ?_) (fun _ _ => id) (fun s t hl hf => ?_) fun s a ha => ?_
  · split <;> exact id
  · rw [hl, hf]
    split <;> exact ⟨rfl, rfl⟩
  · split at ha <;> exact ha

theorem declare (token : Token) (name : String) :
    Checks (fun _ _ _ => True) (modify fun s => s.declare token name) :=
  step (fun s => s.inLoop_declare _ _) (fun s => s.function_declare _ _) fun _ => clean_of_declare

theorem define (name : String) (mutability : Mutability) :
    Checks (fun _ _ _ => True) (modify fun s => (s.define name).setMutability name mutability) := by
  refine step (fun s => ?_) (fun s => ?_) fun s hc => ?_
  · rw [inLoop_setMutability, inLoop_define]
  · rw [function_setMutability, function_define]
  · exact clean_define.mp (clean_setMutability.mp hc)

theorem bindName (token : Token) (name : String) :
    Checks (fun _ _ _ => True) (Resolve.bind token name) :=
  step (fun s => by rw [inLoop_define, inLoop_declare])
    (fun s => by rw [function_define, function_declare])
    fun _ hc => clean_of_declare (clean_define.mp hc)

theorem record (form : UseForm) (use : NameUse) (hops : Nat) :
    Checks (fun _ _ use' => use'.name = use.name) (Resolve.record form use hops) :=
  bind (step (fun _ => rfl) (fun _ => rfl) fun _ => id) fun _ => pure fun _ _ _ => rfl

/-- The same, for what depends on the state before. -/
theorem getting {f : Scoping → Resolve α} (h : ∀ s, Checks P (f s)) :
    Checks P (get >>= f) := fun s a s' hr => h s s a s' hr

/-- A use that is looked up keeps its name. -/
theorem lookUp (form : UseForm) (use : NameUse) :
    Checks (fun _ _ use' => use'.name = use.name) (Resolve.lookUp form use) := by
  refine getting fun s => ?_
  cases hops? use.name.lexeme s.scopes with
  | some hops => exact record form use hops
  | none => exact pure fun _ _ => rfl

/-- Outside classes `this` is reported and left as it is. -/
theorem this {P : Bool → Bool → Expr → Prop} {use : NameUse}
    (h : ∀ l f, ∀ use' : NameUse, use'.name = use.name → P l f (.this use')) :
    Checks P (get >>= fun s =>
      if s.classContext = .none then
        Resolve.report use.name .thisOutsideClass >>= fun _ => Pure.pure (.this use)
      else Resolve.lookUp .this use >>= fun use' => Pure.pure (.this use')) := by
  refine getting fun s => ?_
  by_cases hclass : s.classContext = .none
  · rw [if_pos hclass]
    exact bind (report (P := fun _ _ _ => True) _ _) fun _ => pure fun l f _ => h l f use rfl
  · rw [if_neg hclass]
    exact bind (lookUp .this use) fun use' => pure fun l f hu => h l f use' hu

theorem readOuter (use : NameUse) (outer : List StaticScope) :
    Checks (fun _ _ use' => use'.name = use.name) (Resolve.readOuter use outer) := by
  unfold Resolve.readOuter
  dsimp only
  cases hops? use.name.lexeme outer with
  | some hops => exact record .read use (hops + 1)
  | none =>
      refine getting fun s => ?_
      by_cases hg : use.name.lexeme ∈ s.globals
      · simp only [hg, if_true]
        have hlog : Checks (fun _ _ _ => True) (modify fun s : Scoping =>
            { s with notices := s.notices.push (.log (.globalRead use.name.lexeme)) }) :=
          step (fun _ => rfl) (fun _ => rfl) fun s hc => by
            simpa [Clean, countErrors_append] using hc
        exact bind hlog fun _ => pure fun _ _ _ => rfl
      · simp only [hg, if_false]
        exact bind (report (P := fun _ _ _ => True) _ _) fun _ => pure fun _ _ _ => rfl

theorem read (use : NameUse) :
    Checks (fun _ _ use' => use'.name = use.name) (Resolve.read use) := by
  refine getting fun s => ?_
  cases hs : s.scopes with
  | nil =>
      by_cases hg : use.name.lexeme ∈ s.initializing ∧ use.name.lexeme ∉ s.globals
      · simp only [hg, not_false_eq_true, and_self, if_true]
        exact bind (report (P := fun _ _ _ => True) _ _) fun _ => pure fun _ _ _ => rfl
      · simp only [hg, if_false]
        exact pure fun _ _ => rfl
  | cons inner outer =>
      by_cases hbegun : inner.names.find? use.name.lexeme = some false
      · simp only [hbegun, if_true]
        exact readOuter use outer
      · simp only [hbegun, if_false]
        exact lookUp .read use

theorem checkFieldWrite (object : Expr) (name : Token) :
    Checks (fun _ _ _ => True) (Resolve.checkFieldWrite object name) := by
  unfold Resolve.checkFieldWrite
  cases object with
  | name use =>
      exact check (c := fun s => s.isConstant use.name.lexeme = true) _ _ fun _ _ => trivial
  | _ => exact pure fun _ _ => trivial

theorem checkSuper (keyword : Token) :
    Checks (fun _ _ _ => True) (Resolve.checkSuper keyword) := by
  refine getting fun s => ?_
  cases s.classContext with
  | none => exact report _ _
  | root => exact report _ _
  | derived => exact pure fun _ _ => trivial

end Checks

/-- Name resolution at a nesting level makes legal trees. -/
structure LevelLegal (levels : Nat) : Prop where
  expression : ∀ e, Checks (fun l f e' => Node.Legal l f (.expr e')) (expression levels e)
  statement : ∀ st, Checks (fun l f st' => Node.Legal l f (.stmt st')) (statement levels st)
  method : ∀ f, Checks (fun _ _ f' => f'.Legal) (method levels f)
  functionBody : ∀ context f, context ≠ .none →
    Checks (fun _ _ f' => f'.Legal) (functionBody levels context f)

namespace LevelLegal
variable {levels : Nat}

theorem expression_succ (ih : LevelLegal levels) (e : Expr) :
    Checks (fun l f e' => Node.Legal l f (.expr e')) (Resolve.expression (levels + 1) e) := by
  have hleaf : ∀ {e : Expr} (l f : Bool), e.parts = [] → Node.Legal l f (.expr e) := by
    intro e l f hnone
    refine .expr fun m hm => ?_
    rw [hnone] at hm
    cases hm
  unfold Resolve.expression
  cases e with
  | literal value => exact .pure fun l f => hleaf l f rfl
  | grouping inner =>
      exact .bind (ih.expression inner) fun _ => .pure fun _ _ h =>
        .expr (List.forall_mem_singleton.mpr h)
  | name use => exact .bind (.read use) fun _ => .pure fun l f _ => hleaf l f rfl
  | assign use value =>
      refine .bind (ih.expression value) fun value => ?_
      refine .checking (R := fun _ _ => True) (fun _ _ => trivial) ?_
      exact .bind (.lookUp .assign use) fun _ => .pure fun _ _ _ _ h =>
        .expr (List.forall_mem_singleton.mpr h)
  | unary op token operand =>
      exact .bind (ih.expression operand) fun _ => .pure fun _ _ h =>
        .expr (List.forall_mem_singleton.mpr h)
  | binary left op token right =>
      exact .bind (ih.expression left) fun _ => .bind (ih.expression right) fun _ =>
        .pure fun _ _ hr hl => .expr (List.forall_mem_cons.mpr ⟨hl, List.forall_mem_singleton.mpr hr⟩)
  | logical left op token right =>
      exact .bind (ih.expression left) fun _ => .bind (ih.expression right) fun _ =>
        .pure fun _ _ hr hl => .expr (List.forall_mem_cons.mpr ⟨hl, List.forall_mem_singleton.mpr hr⟩)
  | call callee paren arguments =>
      refine .bind (ih.expression callee) fun callee => ?_
      refine .bind (.mapM fun e _ => ih.expression e) fun arguments => .pure fun _ _ has hc => ?_
      refine .expr (List.forall_mem_cons.mpr ⟨hc, fun m hm => ?_⟩)
      obtain ⟨e, he, rfl⟩ := List.mem_map.mp hm
      exact has e he
  | get object name =>
      exact .bind (ih.expression object) fun _ => .pure fun _ _ h =>
        .expr (List.forall_mem_singleton.mpr h)
  | set object name value =>
      refine .bind (ih.expression value) fun value => .bind (.checkFieldWrite object name) fun _ => ?_
      exact .bind (ih.expression object) fun _ => .pure fun _ _ ho _ hv =>
        .expr (List.forall_mem_cons.mpr ⟨ho, List.forall_mem_singleton.mpr hv⟩)
  | this use => exact .this fun l f _ _ => hleaf l f rfl
  | super use method =>
      exact .bind (.checkSuper _) fun _ => .bind (.lookUp .super use) fun _ =>
        .pure fun l f _ _ => hleaf l f rfl
  | lambda function =>
      exact .bind (ih.functionBody .lambda function (by decide)) fun _ => .pure fun _ _ h =>
        .expr (List.forall_mem_singleton.mpr (.function h))

theorem statement_succ (ih : LevelLegal levels) (st : Stmt) :
    Checks (fun l f st' => Node.Legal l f (.stmt st')) (Resolve.statement (levels + 1) st) := by
  unfold Resolve.statement
  cases st with
  | expression e => exact .bind (ih.expression e) fun _ => .pure fun _ _ h => .expression h
  | print e => exact .bind (ih.expression e) fun _ => .pure fun _ _ h => .print h
  | var mutability name initial =>
      refine .bind (.declare name name.lexeme) fun _ => ?_
      refine .bind (.optional fun e _ => .initializing (ih.expression e)) fun initial => ?_
      exact .bind (.define name.lexeme mutability) fun _ =>
        .pure fun _ _ _ hinitial _ => .var hinitial
  | block body =>
      exact .bind (.inScope (.mapM fun st _ => ih.statement st)) fun _ => .pure fun _ _ h => .block h
  | «if» condition thenBranch elseBranch =>
      refine .bind (ih.expression condition) fun _ => .bind (ih.statement thenBranch) fun _ => ?_
      exact .bind (.optional fun st _ => ih.statement st) fun _ =>
        .pure fun _ _ he ht hc => .if hc ht he
  | «while» condition body increment =>
      have hinside : Checks (fun l f st' => l = true → ∀ l', Node.Legal l' f (.stmt st')) (do
          let condition ← Resolve.expression levels condition
          let body ← Resolve.statement levels body
          return .while condition body (← increment.mapM (Resolve.expression levels))) := by
        refine .bind (ih.expression condition) fun _ => .bind (ih.statement body) fun _ => ?_
        refine .bind (.optional fun e _ => ih.expression e) fun _ => .pure fun l f hi hb hc hl _ => ?_
        subst hl
        exact .while hc hb hi
      exact (Checks.inLoop hinside).weaken fun l _ _ h => h rfl l
  | «break» keyword =>
      refine .checking (c := fun s => (!s.inLoop) = true) (R := fun l _ => l = true) (fun s hc => ?_)
        (.pure fun l f hl => ?_)
      · simpa using hc
      · subst hl
        exact .break
  | «continue» keyword =>
      refine .checking (c := fun s => (!s.inLoop) = true) (R := fun l _ => l = true) (fun s hc => ?_)
        (.pure fun l f hl => ?_)
      · simpa using hc
      · subst hl
        exact .continue
  | «return» keyword value =>
      refine .bind (R := fun _ f _ => f = true)
        (.check (c := fun s => s.function = .none) _ _ fun s hc => decide_eq_true hc) fun _ => ?_
      refine .checking (R := fun _ _ => True) (fun _ _ => trivial) ?_
      refine .bind (.optional fun e _ => ih.expression e) fun _ => .pure fun l f hv _ hf => ?_
      subst hf
      exact .return hv
  | function declaration =>
      have hbody : Checks (fun l f st' => Node.Legal l f (.stmt st')) (do
          return .function (← Resolve.functionBody levels .function declaration)) :=
        .bind (ih.functionBody .function declaration (by decide)) fun _ =>
          .pure fun _ _ h => .declaration (.function h)
      cases hname : declaration.name with
      | none =>
          simp only [hname]
          exact hbody
      | some name =>
          simp only [hname]
          exact .bind (.bindName name name.lexeme) fun _ => hbody.weaken fun _ _ _ h _ => h
  | «class» name superclass methods =>
      have hmethods : Checks (fun l f fs => ∀ d ∈ fs, Node.Legal l f (.function d))
          (methods.mapM (Resolve.method levels)) :=
        .mapM fun f _ => (ih.method f).weaken fun _ _ _ h => .function h
      cases superclass with
      | none =>
          refine .inClass (.bind (.bindName name name.lexeme) fun _ => ?_)
          exact .bind (.inScope hmethods) fun _ => .pure fun _ _ h _ => .class h
      | some superclass =>
          refine .inClass (.bind (.bindName name name.lexeme) fun _ => .reporting ?_)
          exact .bind (.read superclass) fun _ => .bind (.inScope (.inScope hmethods)) fun _ =>
            .pure fun _ _ h _ _ => .class h
  | importModule keyword name as =>
      cases herror : importNameError? (importedModule name) as.isSome with
      | some error =>
          simp only [herror]
          exact .bind (.report (P := fun _ _ _ => True) _ _) fun _ =>
            .pure fun _ _ _ => .importModule
      | none =>
          simp only [herror]
          exact .bind (.bindName _ _) fun _ => .pure fun _ _ _ => .importModule

theorem functionBody_succ (ih : LevelLegal levels) {context : FunctionContext} (f : FunctionDecl)
    (hcontext : context ≠ .none) :
    Checks (fun _ _ f' => f'.Legal) (Resolve.functionBody (levels + 1) context f) := by
  obtain ⟨name, parameters, body⟩ := f
  have hbody : Checks (fun l f (g : FunctionDecl) => ∀ st ∈ g.body, Node.Legal l f (.stmt st))
      (Resolve.inScope [] (do
        parameters.forM fun p => Resolve.bind p p.lexeme
        return FunctionDecl.mk name parameters (← body.mapM (Resolve.statement levels)))) := by
    refine .inScope (.bind (.forM (fun p => .bindName p p.lexeme) parameters) fun _ => ?_)
    exact .bind (.mapM fun st _ => ih.statement st) fun _ => .pure fun _ _ h _ => h
  exact .inFunction hcontext hbody

end LevelLegal

theorem methodContext_ne (f : FunctionDecl) : methodContext f ≠ .none := by
  unfold methodContext
  split
  · split <;> decide
  · decide

theorem legal (levels : Nat) : LevelLegal levels := by
  induction levels with
  | zero =>
      exact
        { expression := fun _ => .throw ()
          statement := fun _ => .throw ()
          method := fun _ => .throw ()
          functionBody := fun _ _ _ => .throw () }
  | succ levels ih =>
      exact
        { expression := ih.expression_succ
          statement := ih.statement_succ
          method := fun f => ih.functionBody _ f (methodContext_ne f)
          functionBody := fun _ f h => ih.functionBody_succ f h }

end Resolve

namespace UnitText
variable {t : UnitText}

/-- What name resolution checks holds of an accepted unit, outside loops and functions. -/
theorem checked {P : Bool → Bool → List Stmt → Prop} (h : t.unit.ok = true)
    (hall : Resolve.Checks P (t.parsed.statements.mapM (Resolve.statement (t.levels / 2)))) :
    P false false t.unit.statements := by
  obtain ⟨s, hs⟩ := resolution_ok h
  exact ((hall _ _ _ hs.run).2.2 hs.clean).2

/-- The statements of an accepted unit are legal outside loops and functions. -/
theorem legal (h : t.unit.ok = true) :
    ∀ st ∈ t.unit.statements, Node.Legal false false (.stmt st) :=
  checked h (.mapM fun st _ => (Resolve.legal (t.levels / 2)).statement st)

end UnitText

end Treewalk
