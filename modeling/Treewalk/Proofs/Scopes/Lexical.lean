import Treewalk.Proofs.Scopes.Constants
import Treewalk.Proofs.Scopes.Tables

/-!
# The table of uses is the lexical one

The uses of names in a tree, in the order in which they are looked up, make up the table of an accepted
unit: each that has hops is in it. And the hops of a variable that is read or assigned to are the
number of constructs with scopes that stand around it inside the innermost one that declares its name
before it.
-/
namespace Treewalk

mutual

/-- The uses of names in an expression, in the order in which they are looked up. -/
def Expr.uses : Expr → List (UseForm × NameUse)
  | .literal _ => []
  | .grouping inner => inner.uses
  | .name use => [(.read, use)]
  | .assign use value => value.uses ++ [(.assign, use)]
  | .unary _ _ operand => operand.uses
  | .binary left _ _ right | .logical left _ _ right => left.uses ++ right.uses
  | .call callee _ arguments => callee.uses ++ exprUses arguments
  | .get object _ => object.uses
  | .set object _ value => value.uses ++ object.uses
  | .this use => [(.this, use)]
  | .super use _ => [(.super, use)]
  | .lambda function => function.uses

def exprUses : List Expr → List (UseForm × NameUse)
  | [] => []
  | e :: es => e.uses ++ exprUses es

def exprUses? : Option Expr → List (UseForm × NameUse)
  | none => []
  | some e => e.uses

/-- The uses of names in a statement. -/
def Stmt.uses : Stmt → List (UseForm × NameUse)
  | .expression e | .print e => e.uses
  | .var _ _ initial => exprUses? initial
  | .block body => stmtUses body
  | .if condition thenBranch elseBranch => condition.uses ++ thenBranch.uses ++ stmtUses? elseBranch
  | .while condition body increment => condition.uses ++ body.uses ++ exprUses? increment
  | .break _ | .continue _ | .importModule _ _ _ => []
  | .return _ value => exprUses? value
  | .function declaration => declaration.uses
  | .class _ superclass methods =>
      superclass.toList.map (fun use => (.read, use)) ++ functionUses methods

def stmtUses : List Stmt → List (UseForm × NameUse)
  | [] => []
  | s :: ss => s.uses ++ stmtUses ss

def stmtUses? : Option Stmt → List (UseForm × NameUse)
  | none => []
  | some s => s.uses

/-- The uses of names in a function. -/
def FunctionDecl.uses : FunctionDecl → List (UseForm × NameUse)
  | .mk _ _ body => stmtUses body

def functionUses : List FunctionDecl → List (UseForm × NameUse)
  | [] => []
  | f :: fs => f.uses ++ functionUses fs

end

theorem exprUses_eq (es : List Expr) : exprUses es = es.flatMap Expr.uses := by
  induction es with
  | nil => rfl
  | cons e es ih => rw [exprUses, ih, List.flatMap_cons]

theorem exprUses?_eq (e : Option Expr) : exprUses? e = e.toList.flatMap Expr.uses := by
  cases e with
  | none => rfl
  | some e => exact (List.flatMap_singleton _ _).symm

theorem stmtUses_eq (ss : List Stmt) : stmtUses ss = ss.flatMap Stmt.uses := by
  induction ss with
  | nil => rfl
  | cons s ss ih => rw [stmtUses, ih, List.flatMap_cons]

theorem stmtUses?_eq (s : Option Stmt) : stmtUses? s = s.toList.flatMap Stmt.uses := by
  cases s with
  | none => rfl
  | some s => exact (List.flatMap_singleton _ _).symm

theorem functionUses_eq (fs : List FunctionDecl) : functionUses fs = fs.flatMap FunctionDecl.uses := by
  induction fs with
  | nil => rfl
  | cons f fs ih => rw [functionUses, ih, List.flatMap_cons]

/-- What is recorded of uses: the hops of those that have any. -/
def recorded (us : List (UseForm × NameUse)) : List Resolution :=
  us.filterMap fun (form, use) => use.hops.map (⟨form, use.name, ·⟩)

theorem recorded_append (us vs : List (UseForm × NameUse)) :
    recorded (us ++ vs) = recorded us ++ recorded vs := List.filterMap_append

namespace Resolve
variable {α β : Type}

theorem Unrecorded.forM {f : β → Resolve Unit} (h : ∀ b, Unrecorded (f b)) (bs : List β) :
    Unrecorded (bs.forM f) := by
  induction bs with
  | nil =>
      intro s a s' hrun
      cases hrun
      rfl
  | cons b bs ih =>
      intro s a s' hrun
      obtain ⟨_, t, hb, hrun⟩ := Watched.bind_ok hrun
      exact (ih t a s' hrun).trans (h b s _ t hb)

/-- Uses are looked up and recorded, which are said something of together with the result. -/
def Adds (Q : List (UseForm × NameUse) → α → Prop) (p : Resolve α) : Prop :=
  ∀ s a s', p s = .ok a s' →
    ∃ us, s'.resolutions.toList = s.resolutions.toList ++ recorded us ∧ Q us a

namespace Adds
variable {Q R : List (UseForm × NameUse) → α → Prop}

/-- Uses that are not looked up, as they have no hops. -/
theorem unfound {us : List (UseForm × NameUse)} {a : α} (hus : recorded us = []) (h : Q us a) :
    Adds Q (Pure.pure a) := by
  intro s b s' hrun
  cases hrun
  exact ⟨us, by rw [hus, List.append_nil], h⟩

theorem pure {a : α} (h : Q [] a) : Adds Q (Pure.pure a) := unfound rfl h

theorem throw (e : Unit) : Adds Q (MonadExcept.throw e : Resolve α) := fun _ _ _ h => nomatch h

theorem bind {p : Resolve β} {f : β → Resolve α} {P : List (UseForm × NameUse) → β → Prop}
    (hp : Adds P p) (hf : ∀ b, Adds (fun vs a => ∀ us, P us b → R (us ++ vs) a) (f b)) :
    Adds R (p >>= f) := by
  intro s a s' h
  obtain ⟨b, t, hb, h⟩ := Watched.bind_ok h
  obtain ⟨us, hus, hP⟩ := hp s b t hb
  obtain ⟨vs, hvs, hR⟩ := hf b t a s' h
  exact ⟨us ++ vs, by rw [hvs, hus, recorded_append, List.append_assoc], hR us hP⟩

/-- Nothing is looked up first. -/
theorem after {p : Resolve β} {f : β → Resolve α} (hp : Unrecorded p) (hf : ∀ b, Adds R (f b)) :
    Adds R (p >>= f) := by
  intro s a s' h
  obtain ⟨b, t, hb, h⟩ := Watched.bind_ok h
  obtain ⟨vs, hvs, hR⟩ := hf b t a s' h
  exact ⟨vs, by rw [hvs, hp s b t hb], hR⟩

/-- Nothing is looked up afterwards. -/
theorem followed {p : Resolve α} {q : α → Resolve Unit} (hp : Adds R p)
    (hq : ∀ a, Unrecorded (q a)) : Adds R (do let a ← p; q a; return a) := by
  intro s a s' h
  obtain ⟨b, t, hb, h⟩ := Watched.bind_ok h
  obtain ⟨_, t', ht, h⟩ := Watched.bind_ok h
  cases h
  obtain ⟨us, hus, hR⟩ := hp s a t hb
  exact ⟨us, by rw [hq a t _ _ ht, hus], hR⟩

theorem getting {f : Scoping → Resolve α} (h : ∀ s, Adds R (f s)) : Adds R (get >>= f) :=
  after (fun _ _ _ hget => by cases hget; rfl) h

/-- Something may be reported first. -/
theorem checking {c : Scoping → Prop} [DecidablePred c] {p : Resolve α} {token : Token}
    {error : StaticError} (hp : Adds R p) :
    Adds R (get >>= fun s => if c s then Resolve.report token error >>= fun _ => p else p) :=
  getting fun s => by
    split
    · exact after (.report token error) fun _ => hp
    · exact hp

theorem use {form : UseForm} {name : NameUse} {p : Resolve NameUse}
    (h : ∀ {s use' s'}, p s = .ok use' s' → Recorded form name use' s s') :
    Adds (fun us use' => us = [(form, use')]) p := by
  intro s use' s' hrun
  refine ⟨_, (h hrun).resolutions.trans (congrArg (s.resolutions.toList ++ ·) ?_), rfl⟩
  obtain ⟨token, hops⟩ := use'
  cases hops <;> rfl

theorem inScope {names : List String} {p : Resolve α} (h : Adds R p) :
    Adds R (Resolve.inScope names p) :=
  after (.modify fun _ => rfl) fun _ => h.followed fun _ => .modify fun _ => rfl

theorem inFunction {context : FunctionContext} {p : Resolve α} (h : Adds R p) :
    Adds R (Resolve.inFunction context p) :=
  getting fun _ => after (.modify fun _ => rfl) fun _ => h.followed fun _ => .modify fun _ => rfl

theorem inLoop {p : Resolve α} (h : Adds R p) : Adds R (Resolve.inLoop p) :=
  getting fun _ => after (.modify fun _ => rfl) fun _ => h.followed fun _ => .modify fun _ => rfl

theorem inClass {context : ClassContext} {p : Resolve α} (h : Adds R p) :
    Adds R (Resolve.inClass context p) :=
  getting fun _ => after (.modify fun _ => rfl) fun _ => h.followed fun _ => .modify fun _ => rfl

theorem initializing {name : String} {p : Resolve α} (h : Adds R p) :
    Adds R (Resolve.initializing name p) := by
  have hrest := h.followed (q := fun _ => modify fun s =>
    { s with initializing := s.initializing.filter (· ≠ name) }) fun _ => .modify fun _ => rfl
  refine getting fun s => ?_
  by_cases hs : s.scopes.isEmpty = true
  · simp only [hs, if_true]
    exact after (.modify fun _ => rfl) fun _ => hrest
  · simp only [hs]
    exact hrest

theorem mapM {f : β → Resolve α} {uses : α → List (UseForm × NameUse)} {bs : List β}
    (h : ∀ b ∈ bs, Adds (fun us a => us = uses a) (f b)) :
    Adds (fun us as => us = as.flatMap uses) (bs.mapM f) := by
  induction bs with
  | nil => exact pure rfl
  | cons b bs ih =>
      rw [List.mapM_cons]
      refine bind (h b (List.mem_cons_self ..)) fun a =>
        bind (ih fun b hb => h b (List.mem_cons_of_mem _ hb)) fun as => pure fun us has vs ha => ?_
      rw [has, ha, List.append_nil, List.flatMap_cons]

theorem optional {f : β → Resolve α} {uses : α → List (UseForm × NameUse)} {o : Option β}
    (h : ∀ b ∈ o, Adds (fun us a => us = uses a) (f b)) :
    Adds (fun us o' => us = o'.toList.flatMap uses) (o.mapM f) := by
  cases o with
  | none => exact pure rfl
  | some b =>
      refine bind (h b rfl) fun a => pure fun us ha => ?_
      rw [ha]
      rfl

end Adds

/-- At a nesting level, the uses of a tree are recorded as it is resolved. -/
structure LevelAdds (levels : Nat) : Prop where
  expression : ∀ e, (Node.expr e).Unresolved →
    Adds (fun us e' => us = e'.uses) (expression levels e)
  statement : ∀ st, (Node.stmt st).Unresolved →
    Adds (fun us st' => us = st'.uses) (statement levels st)
  method : ∀ f, (Node.function f).Unresolved → Adds (fun us f' => us = f'.uses) (method levels f)
  functionBody : ∀ context f, (Node.function f).Unresolved →
    Adds (fun us f' => us = f'.uses) (functionBody levels context f)

namespace LevelAdds
variable {levels : Nat}

theorem expression_succ (ih : LevelAdds levels) {e : Expr} (hraw : (Node.expr e).Unresolved) :
    Adds (fun us e' => us = e'.uses) (Resolve.expression (levels + 1) e) := by
  have hpart : ∀ m ∈ e.parts, m.Unresolved := fun m hm => hraw.inner (.part hm)
  have huse : ∀ use, (Node.expr e).use? = some use → use.hops = none := hraw.here.2
  unfold Resolve.expression
  cases e with
  | literal value => exact .pure (by rw [Expr.uses])
  | grouping inner =>
      refine .bind (ih.expression inner (hpart _ (List.mem_singleton_self _))) fun inner' =>
        .pure fun us h => ?_
      rw [h, List.append_nil, Expr.uses]
  | name use =>
      refine .bind (.use (read_recorded (huse use rfl))) fun use' => .pure fun us h => ?_
      rw [h, Expr.uses]
      rfl
  | assign use value =>
      refine .bind (ih.expression value (hpart _ (List.mem_singleton_self _))) fun value' => ?_
      refine .checking (.bind (.use (lookUp_recorded (huse use rfl))) fun use' =>
        .pure fun us h vs hv => ?_)
      rw [hv, h, List.append_nil, Expr.uses]
  | unary op token operand =>
      refine .bind (ih.expression operand (hpart _ (List.mem_singleton_self _))) fun operand' =>
        .pure fun us h => ?_
      rw [h, List.append_nil, Expr.uses]
  | binary left op token right =>
      refine .bind (ih.expression left (hpart _ (List.mem_cons_self ..))) fun left' =>
        .bind (ih.expression right (hpart _ (List.mem_cons_of_mem _ (List.mem_singleton_self _))))
          fun right' => .pure fun us hr vs hl => ?_
      rw [hl, hr, List.append_nil, Expr.uses]
  | logical left op token right =>
      refine .bind (ih.expression left (hpart _ (List.mem_cons_self ..))) fun left' =>
        .bind (ih.expression right (hpart _ (List.mem_cons_of_mem _ (List.mem_singleton_self _))))
          fun right' => .pure fun us hr vs hl => ?_
      rw [hl, hr, List.append_nil, Expr.uses]
  | call callee paren arguments =>
      refine .bind (ih.expression callee (hpart _ (List.mem_cons_self ..))) fun callee' =>
        .bind (.mapM fun e he => ih.expression e ?_) fun arguments' => .pure fun us has vs hc => ?_
      · exact hpart _ (List.mem_cons_of_mem _ (List.mem_map_of_mem he))
      · rw [hc, has, List.append_nil, Expr.uses, exprUses_eq]
  | get object name =>
      refine .bind (ih.expression object (hpart _ (List.mem_singleton_self _))) fun object' =>
        .pure fun us h => ?_
      rw [h, List.append_nil, Expr.uses]
  | set object name value =>
      refine .bind (ih.expression value
        (hpart _ (List.mem_cons_of_mem _ (List.mem_singleton_self _)))) fun value' => ?_
      refine .after (.checkFieldWrite object name) fun _ => ?_
      refine .bind (ih.expression object (hpart _ (List.mem_cons_self ..))) fun object' =>
        .pure fun us ho vs hv => ?_
      rw [hv, ho, List.append_nil, Expr.uses]
  | this use =>
      refine .getting fun s => ?_
      by_cases hclass : s.classContext = .none
      · simp only [hclass, if_true]
        have hnone : recorded [(.this, use)] = [] := by simp [recorded, huse use rfl]
        exact .after (.report _ _) fun _ => .unfound hnone (by rw [Expr.uses])
      · simp only [hclass, if_false]
        refine .bind (.use (lookUp_recorded (huse use rfl))) fun use' => .pure fun us h => ?_
        rw [h, Expr.uses]
        rfl
  | super use method =>
      refine .after (.checkSuper _) fun _ => ?_
      refine .bind (.use (lookUp_recorded (huse use rfl))) fun use' => .pure fun us h => ?_
      rw [h, Expr.uses]
      rfl
  | lambda function =>
      refine .bind (ih.functionBody .lambda function (hpart _ (List.mem_singleton_self _)))
        fun function' => .pure fun us h => ?_
      rw [h, List.append_nil, Expr.uses]

theorem statement_succ (ih : LevelAdds levels) {st : Stmt} (hraw : (Node.stmt st).Unresolved) :
    Adds (fun us st' => us = st'.uses) (Resolve.statement (levels + 1) st) := by
  have hpart : ∀ m ∈ st.parts, m.Unresolved := fun m hm => hraw.inner (.part hm)
  unfold Resolve.statement
  cases st with
  | expression e =>
      refine .bind (ih.expression e (hpart _ (List.mem_singleton_self _))) fun e' =>
        .pure fun us h => ?_
      rw [h, List.append_nil, Stmt.uses]
  | print e =>
      refine .bind (ih.expression e (hpart _ (List.mem_singleton_self _))) fun e' =>
        .pure fun us h => ?_
      rw [h, List.append_nil, Stmt.uses]
  | var mutability name initial =>
      refine .after (.modify fun s => s.resolutions_declare _ _) fun _ => ?_
      refine .bind (.optional fun e he => .initializing (ih.expression e ?_)) fun initial' =>
        .after (.modify fun s => ?_) fun _ => .pure fun us h => ?_
      · cases he
        exact (hraw.inner .initial).anywhere []
      · rw [Scoping.resolutions_setMutability, Scoping.resolutions_define]
      · rw [h, List.append_nil, Stmt.uses, exprUses?_eq]
  | block body =>
      refine .bind (.inScope (.mapM fun st hst => ih.statement st ?_)) fun body' =>
        .pure fun us h => ?_
      · obtain ⟨before, after, rfl⟩ := List.append_of_mem hst
        exact (hraw.inner .block).anywhere []
      · rw [h, List.append_nil, Stmt.uses, stmtUses_eq]
  | «if» condition thenBranch elseBranch =>
      refine .bind (ih.expression condition (hpart _ (List.mem_cons_self ..))) fun condition' => ?_
      refine .bind (ih.statement thenBranch
        (hpart _ (List.mem_cons_of_mem _ (List.mem_cons_self ..)))) fun thenBranch' => ?_
      refine .bind (.optional fun st hst => ih.statement st ?_) fun elseBranch' =>
        .pure fun us he vs ht ws hc => ?_
      · cases hst
        exact hpart _ (List.mem_cons_of_mem _ (List.mem_cons_of_mem _ (List.mem_singleton_self _)))
      · rw [hc, ht, he, List.append_nil, Stmt.uses, stmtUses?_eq, List.append_assoc]
  | «while» condition body increment =>
      refine .inLoop (.bind (ih.expression condition (hpart _ (List.mem_cons_self ..)))
        fun condition' => ?_)
      refine .bind (ih.statement body
        (hpart _ (List.mem_cons_of_mem _ (List.mem_cons_self ..)))) fun body' => ?_
      refine .bind (.optional fun e he => ih.expression e ?_) fun increment' =>
        .pure fun us hi vs hb ws hc => ?_
      · cases he
        exact hpart _ (List.mem_cons_of_mem _ (List.mem_cons_of_mem _ (List.mem_singleton_self _)))
      · rw [hc, hb, hi, List.append_nil, Stmt.uses, exprUses?_eq, List.append_assoc]
  | «break» keyword =>
      exact .checking (c := fun s => (!s.inLoop) = true) (.pure (by rw [Stmt.uses]))
  | «continue» keyword =>
      exact .checking (c := fun s => (!s.inLoop) = true) (.pure (by rw [Stmt.uses]))
  | «return» keyword value =>
      refine .after (.check (c := fun s => s.function = .none) _ _) fun _ => ?_
      refine .checking (c := fun s => value.isSome = true ∧ s.function = .initializer)
        (.bind (.optional fun e he => ih.expression e ?_) fun value' => .pure fun us h => ?_)
      · cases he
        exact hpart _ (List.mem_singleton_self _)
      · rw [h, List.append_nil, Stmt.uses, exprUses?_eq]
  | function f =>
      have hf := (hraw.inner .declared).anywhere []
      have hrest : Adds (fun us (st' : Stmt) => us = st'.uses) (do
          return Stmt.function (← Resolve.functionBody levels .function f)) := by
        refine .bind (ih.functionBody .function f hf) fun f' => .pure fun us h => ?_
        rw [h, List.append_nil, Stmt.uses]
      cases hname : f.name with
      | none =>
          simp only [hname]
          exact hrest
      | some name =>
          simp only [hname]
          exact .after (.bind _ _) fun _ => hrest
  | «class» name superclass methods =>
      cases superclass with
      | none =>
          refine .inClass (.after (.bind _ _) fun _ =>
            .bind (.inScope (.mapM fun f hf => ih.method f ?_)) fun methods' => .pure fun us h => ?_)
          · exact (hraw.inner (.method hf)).anywhere []
          · rw [h, List.append_nil, Stmt.uses, functionUses_eq]
            rfl
      | some superclass =>
          have huse := (hpart _ (List.mem_singleton_self _)).here.2 superclass rfl
          have hrest : Adds (fun us (st' : Stmt) => us = st'.uses) (do
              let superclass ← Resolve.read superclass
              return Stmt.class name superclass
                (← Resolve.inScope ["super"]
                  (Resolve.inScope ["this"] (methods.mapM (Resolve.method levels))))) := by
            refine .bind (.use (read_recorded huse)) fun superclass' =>
              .bind (.inScope (.inScope (.mapM fun f hf => ih.method f ?_))) fun methods' =>
                .pure fun us h vs hu => ?_
            · exact (hraw.inner (.inherited hf)).anywhere []
            · rw [hu, h, List.append_nil, Stmt.uses, functionUses_eq]
              rfl
          refine .inClass (.after (.bind _ _) fun _ => ?_)
          by_cases hself : superclass.name.lexeme = name.lexeme
          · simp only [hself, if_true]
            exact .after (.report _ _) fun _ => hrest
          · simp only [hself, if_false]
            exact hrest
  | importModule keyword name as =>
      cases herror : importNameError? (importedModule name) as.isSome with
      | some error =>
          simp only [herror]
          exact .after (.report _ _) fun _ => .pure (by rw [Stmt.uses])
      | none =>
          simp only [herror]
          exact .after (.bind _ _) fun _ => .pure (by rw [Stmt.uses])

theorem functionBody_succ (ih : LevelAdds levels) (context : FunctionContext) {f : FunctionDecl}
    (hraw : (Node.function f).Unresolved) :
    Adds (fun us f' => us = f'.uses) (Resolve.functionBody (levels + 1) context f) := by
  obtain ⟨name, parameters, body⟩ := f
  refine .inFunction (.inScope (.after (.forM (fun p => .bind _ _) _) fun _ =>
    .bind (.mapM fun st hst => ih.statement st ?_) fun body' => .pure fun us h => ?_))
  · obtain ⟨before, after, rfl⟩ := List.append_of_mem hst
    exact (hraw.inner (.body rfl)).anywhere []
  · rw [h, List.append_nil, FunctionDecl.uses, stmtUses_eq]

end LevelAdds

theorem adds (levels : Nat) : LevelAdds levels := by
  induction levels with
  | zero =>
      exact
        { expression := fun _ _ => .throw ()
          statement := fun _ _ => .throw ()
          method := fun _ _ => .throw ()
          functionBody := fun _ _ _ => .throw () }
  | succ levels ih =>
      exact
        { expression := fun _ h => ih.expression_succ h
          statement := fun _ h => ih.statement_succ h
          method := fun f h => ih.functionBody (methodContext f) f h
          functionBody := fun context _ h => ih.functionBody_succ context h }

end Resolve

/-- An expression looks a variable up, to read it or to assign to it. -/
def Expr.LooksUp (e : Expr) (form : UseForm) (use : NameUse) : Prop :=
  e = .name use ∧ form = .read ∨ ∃ value, e = .assign use value ∧ form = .assign

namespace UnitText
variable {t : UnitText}

/-- The table of an accepted unit lists the uses in its tree. -/
theorem resolutions_uses (h : t.unit.ok = true) :
    t.unit.resolutions = recorded (t.unit.statements.flatMap Stmt.uses) := by
  obtain ⟨s, hs⟩ := resolution_ok h
  -- Every use is recorded when it is visited, so the table lists them in the order of the tree.
  have hall := Resolve.Adds.mapM fun st hst =>
    (Resolve.adds (t.levels / 2)).statement st (unresolved h st hst)
  obtain ⟨us, hus, rfl⟩ := hall _ _ _ hs.run
  rw [hs.table, hus]
  rfl

/-- Every variable that an accepted unit looks up has the hops to the innermost frame that offers its
name. -/
theorem lexical (h : t.unit.ok = true) {st : Stmt} (hst : st ∈ t.unit.statements)
    {frames : List Frame} {e : Expr} {form : UseForm} {use : NameUse}
    (hwithin : Within ⟨[], .stmt st⟩ ⟨frames, .expr e⟩) (he : e.LooksUp form use) :
    use.Lexical form frames := by
  obtain ⟨before, after, hsplit⟩ := List.append_of_mem hst
  have hfits := (placed h hsplit _ hwithin).fits
  rcases he with ⟨rfl, rfl⟩ | ⟨value, rfl, rfl⟩
  · exact hfits
  · exact hfits.2

/-- The statements of an accepted unit are those that were read, with hops: the table lists the hops of
all names that are used in them; and a variable that is read or assigned to has as many hops as there
are constructs with scopes around it inside the innermost one that offers its name, which means that
the name is declared in that construct before the use, and no hops if there is none. -/
theorem hops_are_lexical (h : t.unit.ok = true) :
    t.unit.statements.map Stmt.bare = t.parsed.statements.map Stmt.bare ∧
    t.unit.resolutions = recorded (t.unit.statements.flatMap Stmt.uses) ∧
    ∀ st ∈ t.unit.statements, ∀ (frames : List Frame) (e : Expr) (form : UseForm) (use : NameUse),
      Within ⟨[], .stmt st⟩ ⟨frames, .expr e⟩ → e.LooksUp form use →
      (∀ n, use.hops = some n ↔ (∃ f, frames[n]? = some f ∧ f.Offers form use.name.lexeme n) ∧
        ∀ m < n, ∀ f, frames[m]? = some f → ¬f.Offers form use.name.lexeme m) ∧
      (use.hops = none ↔ ∀ (m : Nat) (f : Frame), frames[m]? = some f → ¬f.Offers form use.name.lexeme m) := by
  refine ⟨bare_statements h, resolutions_uses h, fun st hst frames e form use hwithin he => ?_⟩
  have hlexical := lexical h hst hwithin he
  refine ⟨hlexical, fun hnone m f hf hoffers => ?_, fun hnone => ?_⟩
  · obtain ⟨n, hn⟩ := Innermost.exists_of (P := fun m f => f.Offers form use.name.lexeme m) hf hoffers
    rw [(hlexical n).mpr hn] at hnone
    cases hnone
  · cases hh : use.hops with
    | none => rfl
    | some n =>
        obtain ⟨⟨f, hf, hoffers⟩, -⟩ := (hlexical n).mp hh
        exact (hnone n f hf hoffers).elim

/-- What the initial value of a variable reads in a block that stands in another one. -/
def innerRead? : List Stmt → Option NameUse
  | [.block [.var _ _ none, .block [.var _ _ (some (.name use))]]] => some use
  | _ => none

theorem eq_of_innerRead? {ss : List Stmt} {use : NameUse} (h : innerRead? ss = some use) :
    ∃ m name m' name',
      ss = [.block [.var m name none, .block [.var m' name' (some (.name use))]]] := by
  unfold innerRead? at h
  split at h
  · cases h
    exact ⟨_, _, _, _, rfl⟩
  · cases h

/-- A variable whose initial value reads an outer variable of its name. -/
theorem hops_are_lexical_initial :
    let t : UnitText := { levels := 100, file := "<lox>", source := "\x7b var a; \x7b var a = a; \x7d \x7d" }
    t.unit.ok = true ∧ ∃ st ∈ t.unit.statements, ∃ frames use,
      Within ⟨[], .stmt st⟩ ⟨frames, .expr (.name use)⟩ ∧ use.hops = some 1 ∧
      (∃ f, frames[1]? = some f ∧ f.Offers .read use.name.lexeme 1) ∧
      ∀ f, frames[0]? = some f → ¬f.Offers .read use.name.lexeme 0 := by
  intro t
  have hok : t.unit.ok = true := by decide +kernel
  have hread : (innerRead? t.unit.statements).bind NameUse.hops = some 1 := by decide +kernel
  obtain ⟨use, huse, hhops⟩ := Option.bind_eq_some_iff.mp hread
  obtain ⟨m, name, m', name', hshape⟩ := eq_of_innerRead? huse
  let outer : Frame := ⟨.block [.var m name none, .block [.var m' name' (some (.name use))]],
    [(name.lexeme, m)], none⟩
  let inner : Frame := ⟨.block [.var m' name' (some (.name use))], [], none⟩
  have hwithin : Within
      ⟨[], .stmt (.block [.var m name none, .block [.var m' name' (some (.name use))]])⟩
      ⟨beginning name'.lexeme [inner, outer], .expr (.name use)⟩ :=
    ((Relation.ReflTransGen.single (@Inner.block [] [.var m name none] [] _)).tail
      (@Inner.block [outer] [] [] _)).tail Inner.initial
  have hmem := hshape.symm ▸ List.mem_singleton_self (Stmt.block
    [.var m name none, .block [.var m' name' (some (.name use))]])
  have hlexical := (hops_are_lexical hok).2.2 _ hmem _ _ _ _ hwithin (.inl ⟨rfl, rfl⟩)
  obtain ⟨hoffers, hnot⟩ := (hlexical.1 1).mp hhops
  exact ⟨hok, _, hmem, _, use, hwithin, hhops, hoffers, hnot 0 (Nat.succ_pos 0)⟩

end UnitText
end Treewalk
