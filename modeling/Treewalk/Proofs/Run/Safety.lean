import Treewalk.Proofs.Run.Modules

/-!
# Evaluation is safe

Every node is safe where it stands, by induction on the nesting levels left: a node runs its parts,
the initial value of a variable, or a body in a new scope, and each of these stands where the frames
of its position say.
-/
namespace Treewalk.Watching

/-- Evaluation with so many levels is safe. -/
structure LevelSafe (current : Prop) (patience levels : Nat) : Prop where
  expression : ∀ n s site frames e, Good current n s → At s site ⟨frames, .expr e⟩ →
    Safe current n (expression patience levels site e) s fun _ _ => True
  call : ∀ n s callee vs, Good current n s → 0 < s.state.scopes.size →
    s.state.arity? callee = some vs.length →
    Safe current n (call patience levels callee vs) s fun _ _ => True
  statement : SafeStatements current (statement patience levels)

section
variable {current : Prop} {n patience levels : Nat} {s : Watched World Event} {site : Site}
  {frames : List Frame}

/-- A part of a node is evaluated later. -/
theorem LevelSafe.part (ih : LevelSafe current patience levels) {node : Node}
    {t : Watched World Event} (hat : At s site ⟨frames, node⟩) (ht : Goes current n s t) {e : Expr}
    (hm : .expr e ∈ node.parts) :
    Safe current n (Watching.expression patience levels site e) t fun _ _ => True :=
  ih.expression n t site frames e ht.good ((hat.part hm).grow ht.grows)

theorem LevelSafe.call_safe (ih : LevelSafe current patience levels) (h : Good current n s)
    {callee : Expr} {paren : Token} {arguments : List Expr}
    (hat : At s site ⟨frames, .expr (.call callee paren arguments)⟩) :
    Safe current n (do
      let f ← Watching.expression patience levels site callee
      let vs ← arguments.mapM (Watching.expression patience levels site)
      Watched.quietly (Eval.checkCall f paren vs.length)
      atCall paren (Watching.call patience levels f vs)) s fun _ _ => True := by
  have hcallee := ih.part hat h.here (List.mem_cons_self ..)
  refine hcallee.bind fun f t ht _ => ?_
  have harguments : Safe current n
      (arguments.mapM (Watching.expression patience levels site)) t fun vs _ =>
        vs.length = arguments.length := by
    refine .mapM (fun e he u hu => ?_) ht.good
    exact ih.part hat (ht.trans hu) (List.mem_cons_of_mem _ (List.mem_map_of_mem he))
  refine harguments.bind fun vs u hu _ => ?_
  have hcheck := Safe.calmly hu.good (Eval.calm_checkCall f paren vs.length)
  refine hcheck.bind fun _ x hx ⟨_, hok⟩ => ?_
  obtain ⟨hsame, harity⟩ := Eval.checkCall_ok hok
  have hsize : 0 < x.state.scopes.size :=
    Nat.zero_lt_of_lt (hx.good.sane.stands_lt (((hat.stands.grow ht.grows).grow hu.grows).grow
      hx.grows))
  rw [← hsame] at harity
  exact atCall_safe (ih.call n x f vs hx.good hsize harity)

theorem LevelSafe.expression_succ (ih : LevelSafe current patience levels) (h : Good current n s)
    {e : Expr} (hat : At s site ⟨frames, .expr e⟩) :
    Safe current n (Watching.expression patience (levels + 1) site e) s fun _ _ => True := by
  refine .marking h hat fun t ht _ hreached => ?_
  have hatt := hat.grow ht.grows
  cases e with
  | literal l => exact .pure ht.good trivial
  | grouping inner => exact ih.part hat ht (List.mem_singleton_self _)
  | name use => exact (read_safe ht.good hatt rfl).trivially
  | this use => exact (read_safe ht.good hatt rfl).trivially
  | assign use value =>
      refine (ih.part hat ht (List.mem_singleton_self _)).bind fun v u hu _ => ?_
      refine .marking hu.good (hatt.grow hu.grows) fun x hx _ _ => ?_
      have hassign := assign_safe hx.good v ((hatt.grow hu.grows).grow hx.grows)
      exact hassign.bind fun _ y hy _ => .pure hy.good trivial
  | unary op token operand =>
      refine (ih.part hat ht (List.mem_singleton_self _)).bind fun v u hu _ => ?_
      exact (Safe.calmly hu.good (Eval.calm_unary op token v)).trivially
  | binary left op token right =>
      refine (ih.part hat ht (List.mem_cons_self ..)).bind fun v u hu _ => ?_
      have hright : Node.expr right ∈ (Node.expr (.binary left op token right)).parts :=
        List.mem_cons_of_mem _ (List.mem_singleton_self _)
      refine (ih.part hat (ht.trans hu) hright).bind fun v' x hx _ => ?_
      exact (Safe.calmly hx.good (Eval.calm_binary op token v v')).trivially
  | logical left op token right =>
      refine (ih.part hat ht (List.mem_cons_self ..)).bind fun v u hu _ => ?_
      by_cases hd : op.decides v = true
      · rw [if_pos hd]
        exact .pure hu.good trivial
      · rw [if_neg hd]
        exact ih.part hat (ht.trans hu) (List.mem_cons_of_mem _ (List.mem_singleton_self _))
  | call callee paren arguments => exact ih.call_safe ht.good hatt
  | get object name =>
      refine (ih.part hat ht (List.mem_singleton_self _)).bind fun o u hu _ => ?_
      exact property_safe hu.good o name
  | set object name value =>
      refine (ih.part hat ht (List.mem_cons_self ..)).bind fun o u hu _ => ?_
      have hfields := Safe.calmly hu.good (Eval.calm_checkFields o name)
      refine hfields.bind fun _ x hx _ => ?_
      have hvalue : Node.expr value ∈ (Node.expr (.set object name value)).parts :=
        List.mem_cons_of_mem _ (List.mem_singleton_self _)
      refine (ih.part hat ((ht.trans hu).trans hx) hvalue).bind fun v y hy _ => ?_
      have hatset := ((hatt.grow hu.grows).grow hx.grows).grow hy.grows
      refine .marking hy.good hatset fun z hz _ _ => ?_
      exact (setProperty_safe hz.good o name v).bind fun _ z' hz' _ => .pure hz'.good trivial
  | super use method => exact superMethod_safe ht.good hatt
  | lambda f =>
      have hbegun := (hatt.part (List.mem_singleton_self (Node.function f))).begun
      exact newFunction_safe ht.good ⟨frames, hatt.stands, hbegun, .lambda hreached⟩

/-- What a statement declares is bound when its value is known. -/
theorem declared_safe (h : Good current n s) {t : Stmt} {name : String} {m : Mutability} (v : Value)
    (hat : At s site ⟨frames, .stmt t⟩) (hlatest : Latest n s site.home frames t)
    (hd : t.declares = [(name, m)]) :
    Safe current n (Watched.quietly (Eval.define site.scope name v)) s fun _ s' =>
      Stands s' site.home site.scope (declaring t.declares frames) := by
  have hdefine := declare_safe h v hat hlatest (hd ▸ List.mem_singleton_self _)
  refine hdefine.weaken fun _ u hu ⟨_, hcontains⟩ => ?_
  rw [hd]
  refine (hat.stands.grow hu.grows).declaring fun _ x hx => ?_
  rw [show x = name from List.mem_singleton.mp hx]
  exact hcontains

/-- A function is made before its name is bound, which it is by the time it can be called. -/
theorem functionStatement_safe (h : Good current n s) {f : FunctionDecl}
    (hat : At s site ⟨frames, .stmt (.function f)⟩)
    (hlatest : Latest n s site.home frames (.function f)) {w : World}
    (hreached : .node .reached site (.stmt (.function f)) w ∈ s.notes) :
    Safe current n (Watched.quietly (do
      let v ← Eval.newFunction ⟨f, site.scope, site.home, false⟩
      Eval.define site.scope f.displayName v)) s fun _ s' =>
        Stands s' site.home site.scope (declaring (Stmt.function f).declares frames) := by
  have hdefine := declared_safe h (.function s.state.functions.next) hat hlatest rfl
  obtain ⟨hgoes, hstands⟩ := hdefine
  have hbegun := (hat.begun.grow hgoes.grows).inner .declared
  have hnew := hgoes.good.newFunction (f := ⟨f, site.scope, site.home, false⟩)
    ⟨_, hstands, hbegun, .function (hgoes.grows.notes hreached)⟩
  exact ⟨hgoes.trans hnew, hstands.grow hnew.grows⟩

theorem LevelSafe.var_safe (ih : LevelSafe current patience levels) (h : Good current n s)
    {mutability : Mutability} {name : Token} {initial : Option Expr}
    (hat : At s site ⟨frames, .stmt (.var mutability name initial)⟩)
    (hlatest : Latest n s site.home frames (.var mutability name initial)) :
    Safe current n (do
      let v ←
        match initial with
        | some e => Watching.expression patience levels site e
        | none => pure .nil
      Watched.quietly (Eval.define site.scope name.lexeme v)
      mark .declared site (.stmt (.var mutability name initial))) s fun _ s' =>
        Stands s' site.home site.scope (declaring [(name.lexeme, mutability)] frames) := by
  have hrest : ∀ v t, Goes current n s t → Safe current n (do
      Watched.quietly (Eval.define site.scope name.lexeme v)
      mark .declared site (.stmt (.var mutability name initial))) t fun _ s' =>
        Stands s' site.home site.scope (declaring [(name.lexeme, mutability)] frames) := by
    intro v t ht
    have hdeclared := declared_safe ht.good v (hat.grow ht.grows) (hlatest.grow ht.grows) rfl
    refine hdeclared.bind fun _ u hu hstands => ?_
    have hmark := hu.good.noting (m := .declared) ((hat.grow ht.grows).grow hu.grows)
    exact ⟨hmark, hstands.grow hmark.grows⟩
  cases initial with
  | none => exact hrest .nil s h.here
  | some e =>
      have hinitial := ih.expression n s site _ e h
        ⟨hat.stands.beginning name.lexeme, hat.begun.inner .initial⟩
      exact hinitial.bind fun v t ht _ => hrest v t ht

theorem LevelSafe.block_safe (ih : LevelSafe current patience levels) (h : Good current n s)
    {body : List Stmt} (hat : At s site ⟨frames, .stmt (.block body)⟩) {w : World}
    (hreached : .node .reached site (.stmt (.block body)) w ∈ s.notes) :
    Safe current n (do
      let scope ← newScope (.block body) site.scope
      body.forM (Watching.statement patience levels { site with scope := scope })) s
        fun _ _ => True := by
  have hscope := newScope_safe h (.block body) (h.sane.stands_lt hat.stands)
  refine hscope.bind fun r t ht ⟨hopened, hparent⟩ => ?_
  have hinside : Stands t site.home r (⟨.block body, [] ++ declarations [], none⟩ :: frames) :=
    .inside hopened (fun x hx => nomatch hx) hparent (.block (ht.grows.notes hreached))
      (hat.stands.grow ht.grows)
  refine body_safe ⟨site.home, r⟩ ih.statement body ht.good hinside fun before st after he => ?_
  have hbegun := hat.begun.grow ht.grows
  change body = before ++ st :: after at he
  subst he
  exact hbegun.inner .block

theorem LevelSafe.while_safe (ih : LevelSafe current patience levels) (h : Good current n s)
    {condition : Expr} {body : Stmt} {increment : Option Expr} :
    At s site ⟨frames, .stmt (.while condition body increment)⟩ →
    Latest n s site.home frames (.while condition body increment) →
    Safe current n (loop (Value.truthy <$> Watching.expression patience levels site condition)
      (Watching.statement patience levels site body)
      (match increment with
        | some e => discard (Watching.expression patience levels site e)
        | none => pure ()) patience) s fun _ _ => True := by
  intro hat hlatest
  refine loop_safe (fun t ht => ?_) (fun t ht => ?_) (fun t ht => ?_) h
  · exact (ih.part hat ht (List.mem_cons_self ..)).map fun _ _ _ _ => trivial
  · have hbody : Node.stmt body ∈ (Node.stmt (.while condition body increment)).parts :=
      List.mem_cons_of_mem _ (List.mem_cons_self ..)
    have hpart := ih.statement n t site frames body ht.good ((hat.part hbody).grow ht.grows)
    exact (hpart ((hlatest.part (List.Subset.refl _)).grow ht.grows)).trivially
  · cases increment with
    | none => exact .pure ht.good trivial
    | some e =>
        have hincrement : Node.expr e ∈ (Node.stmt (.while condition body (some e))).parts :=
          List.mem_cons_of_mem _ (List.mem_cons_of_mem _ (List.mem_singleton_self _))
        exact (ih.part hat ht hincrement).map fun _ _ _ _ => trivial

theorem LevelSafe.if_safe (ih : LevelSafe current patience levels) (h : Good current n s)
    {condition : Expr} {thenBranch : Stmt} {elseBranch : Option Stmt}
    (hat : At s site ⟨frames, .stmt (.if condition thenBranch elseBranch)⟩)
    (hlatest : Latest n s site.home frames (.if condition thenBranch elseBranch)) :
    Safe current n (do
      let v ← Watching.expression patience levels site condition
      if v.truthy then Watching.statement patience levels site thenBranch
      else
        match elseBranch with
        | some s => Watching.statement patience levels site s
        | none => return) s fun _ _ => True := by
  refine (ih.part hat h.here (List.mem_cons_self ..)).bind fun v t ht _ => ?_
  have hbranch : ∀ st, .stmt st ∈ (Node.stmt (.if condition thenBranch elseBranch)).parts →
      st.binds ⊆ (Stmt.if condition thenBranch elseBranch).binds →
      Safe current n (Watching.statement patience levels site st) t fun _ _ => True :=
    fun st hst hbinds => (ih.statement n t site frames st ht.good ((hat.part hst).grow ht.grows)
      ((hlatest.part hbinds).grow ht.grows)).trivially
  by_cases hv : v.truthy = true
  · rw [if_pos hv]
    refine hbranch thenBranch (List.mem_cons_of_mem _ (List.mem_cons_self ..)) ?_
    cases elseBranch with
    | none => exact List.Subset.refl _
    | some st => exact List.subset_append_left ..
  · rw [if_neg hv]
    cases elseBranch with
    | none => exact .pure ht.good trivial
    | some st =>
        exact hbranch st
          (List.mem_cons_of_mem _ (List.mem_cons_of_mem _ (List.mem_singleton_self _)))
          (List.subset_append_right ..)

theorem class_safe (h : Good current n s)
    {name : Token} {use : Option NameUse} {methods : List FunctionDecl}
    (hat : At s site ⟨frames, .stmt (.class name use methods)⟩)
    (hlatest : Latest n s site.home frames (.class name use methods)) {w : World}
    (hreached : .node .reached site (.stmt (.class name use methods)) w ∈ s.notes) :
    Safe current n (do
      let parent ← use.mapM (superclass site)
      declareClass site name parent methods) s fun _ s' =>
        Stands s' site.home site.scope (declaring [(name.lexeme, .variable)] frames) := by
  cases use with
  | none =>
      have hnone : (none : Option (Ref .class)).isSome = (none : Option NameUse).isSome := rfl
      exact declareClass_safe h hat hlatest hreached hnone
  | some use =>
      have hparent : Safe current n ((some use).mapM (superclass site)) s fun p _ =>
          p.isSome = true := (superclass_safe h hat).map fun _ _ _ _ => rfl
      exact hparent.bind fun p t ht hp =>
        declareClass_safe ht.good (hat.grow ht.grows) (hlatest.grow ht.grows)
          (ht.grows.notes hreached) hp

theorem LevelSafe.statement_succ (ih : LevelSafe current patience levels) (h : Good current n s)
    {st : Stmt} (hat : At s site ⟨frames, .stmt st⟩) (hlatest : Latest n s site.home frames st) :
    Safe current n (Watching.statement patience (levels + 1) site st) s fun _ s' =>
      Stands s' site.home site.scope (declaring st.declares frames) := by
  refine .marking h hat fun t ht _ hreached => ?_
  have hatt := hat.grow ht.grows
  have hlatestt := hlatest.grow ht.grows
  -- A statement that declares nothing leaves the frames as they are.
  have hplain : st.declares = [] → ∀ {p : Watching Unit}, Safe current n p t (fun _ _ => True) →
      Safe current n p t fun _ s' =>
        Stands s' site.home site.scope (declaring st.declares frames) := by
    intro hnone p hp
    refine hp.weaken fun _ u hu _ => ?_
    rw [hnone, declaring_nil]
    exact hatt.stands.grow hu.grows
  cases st with
  | expression e =>
      refine hplain rfl ((ih.part hat ht (List.mem_singleton_self _)).bind fun _ u hu _ => ?_)
      exact .pure hu.good trivial
  | print e =>
      refine hplain rfl ((ih.part hat ht (List.mem_singleton_self _)).bind fun v u hu _ => ?_)
      have hprint := Eval.calm_modify (f := fun w : World =>
        { w with console := w.console.print (w.display v) }) fun w =>
          .intro rfl rfl rfl rfl (fun _ => rfl) (fun _ => rfl) (fun _ => rfl) fun _ => rfl
      exact (Safe.calmly hu.good hprint).trivially
  | var mutability name initial => exact ih.var_safe ht.good hatt hlatestt
  | block body => exact hplain rfl (ih.block_safe ht.good hatt hreached)
  | «if» condition thenBranch elseBranch => exact hplain rfl (ih.if_safe ht.good hatt hlatestt)
  | «while» condition body increment => exact hplain rfl (ih.while_safe ht.good hatt hlatestt)
  | «break» token => exact .throw ht.good trivial
  | «continue» token => exact .throw ht.good trivial
  | «return» token value =>
      cases value with
      | none => exact .throw ht.good trivial
      | some e =>
          refine (ih.part hat ht (List.mem_singleton_self _)).bind fun v u hu _ => ?_
          exact .throw hu.good trivial
  | function f => exact functionStatement_safe ht.good hatt hlatestt hreached
  | «class» name use methods => exact class_safe ht.good hatt hlatestt hreached
  | importModule keyword name as =>
      have himport := importModule_safe site.home ih.statement ht.good (2 * levels) name
      refine himport.bind fun m u hu _ => ?_
      exact declared_safe hu.good (.module m) (hatt.grow hu.grows) (hlatestt.grow hu.grows) rfl

end

/-- Evaluation is safe, whatever the levels. -/
theorem levelSafe (current : Prop) (patience levels : Nat) :
    LevelSafe current patience levels := by
  -- All three together: a call runs statements, whose expressions make calls, one level lower each.
  induction levels with
  | zero =>
      constructor
      · exact fun n s site frames e h _ => .throw h trivial
      · exact fun n s callee vs h _ _ => .throw h trivial
      · exact fun n s site frames st h _ _ => .throw h trivial
  | succ levels ih =>
      constructor
      · exact fun n s site frames e h hat => ih.expression_succ h hat
      · exact fun n s callee vs h hsize hlen => callValue_safe ih.statement h hsize hlen
      · exact fun n s site frames st h hat hlatest => ih.statement_succ h hat hlatest

end Treewalk.Watching
