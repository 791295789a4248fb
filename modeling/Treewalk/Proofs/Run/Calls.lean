import Treewalk.Proofs.Run.Objects

/-!
# Bodies and calls in a run

Where single statements are safe, so are bodies, which are run statement by statement while their
scope comes to bind more and more names, and so are calls: a function is called in a new scope for
its parameters, wherever it was made.
-/
namespace Treewalk

/-- Statements are safe where they stand, and bind what they declare. -/
def SafeStatements (current : Prop) (run : Site → Stmt → Watching Unit) : Prop :=
  ∀ n s site frames st, Good current n s → At s site ⟨frames, .stmt st⟩ →
    Latest n s site.home frames st → Safe current n (run site st) s fun _ s' =>
      Stands s' site.home site.scope (declaring st.declares frames)

theorem declarations_append (ss ss' : List Stmt) :
    declarations (ss ++ ss') = declarations ss ++ declarations ss' := List.flatMap_append

theorem declarations_singleton (st : Stmt) : declarations [st] = st.declares := by
  unfold declarations
  rw [List.flatMap_cons, List.flatMap_nil, List.append_nil]

/-- The methods of a class are those that it declares. -/
theorem find?_methods (make : FunctionDecl → Closure) {methods : List FunctionDecl}
    {ms : Bindings Closure} {name : String} {f : Closure}
    (h : (methods.foldl (fun ms d => ms.insert d.displayName (make d)) ms).find? name = some f) :
    ms.find? name = some f ∨ ∃ d ∈ methods, d.displayName = name ∧ f = make d := by
  induction methods generalizing ms with
  | nil => exact .inl h
  | cons d methods ih =>
      rcases ih h with hm | ⟨d', hd', hf⟩
      · rw [Bindings.find?_insert] at hm
        by_cases hn : d.displayName = name
        · rw [if_pos hn] at hm
          exact .inr ⟨d, List.mem_cons_self .., hn, (Option.some.inj hm).symm⟩
        · rw [if_neg hn] at hm
          exact .inl hm
      · exact .inr ⟨d', List.mem_cons_of_mem _ hd', hf⟩

/-- Of declarations that give related methods, classes have related methods. -/
theorem rel_methods {R : Closure → Closure → Prop} {make make' : FunctionDecl → Closure}
    {ds ds' : List FunctionDecl}
    (hds : List.Forall₂ (fun d d' => d'.displayName = d.displayName ∧ R (make d) (make' d')) ds ds')
    {ms ms' : Bindings Closure}
    (hms : ∀ name, Option.Rel R (ms.find? name) (ms'.find? name)) (name : String) :
    Option.Rel R ((ds.foldl (fun ms d => ms.insert d.displayName (make d)) ms).find? name)
      ((ds'.foldl (fun ms d => ms.insert d.displayName (make' d)) ms').find? name) := by
  induction hds generalizing ms ms' with
  | nil => exact hms name
  | @cons d d' _ _ hd _ ih =>
      refine ih fun name => ?_
      rw [Bindings.find?_insert, Bindings.find?_insert, hd.1]
      by_cases hn : d.displayName = name
      · rw [if_pos hn, if_pos hn]
        exact .some hd.2
      · rw [if_neg hn, if_neg hn]
        exact hms name

section
variable {current : Prop} {n : Nat} {s : Watched World Event} {site : Site} {frames : List Frame}
  {r : Ref .scope} {run : Site → Stmt → Watching Unit}

namespace Watching

/-- The rest of a body is run where the statements before it have bound what they declare. -/
theorem body_safe (site : Site) (hrun : SafeStatements current run) {c : Construct}
    {start : List (String × Mutability)} {outer : List Frame} (rest : List Stmt) {done : List Stmt}
    (h : Good current n s)
    (hstands : Stands s site.home site.scope (⟨c, start ++ declarations done, none⟩ :: outer))
    (hbegun : ∀ before st after, done ++ rest = before ++ st :: after →
      Begun s site.home ⟨⟨c, start ++ declarations before, none⟩ :: outer, .stmt st⟩) :
    Safe current n (rest.forM (run site)) s fun _ _ => True := by
  induction rest generalizing s done with
  | nil => exact .pure h trivial
  | cons st rest ih =>
      have hat : At s site ⟨⟨c, start ++ declarations done, none⟩ :: outer, .stmt st⟩ :=
        ⟨hstands, hbegun done st rest rfl⟩
      have hfirst := hrun n s site _ st h hat .inside
      refine hfirst.bind fun _ t ht hnext => ?_
      have hdone : Stands t site.home site.scope
          (⟨c, start ++ declarations (done ++ [st]), none⟩ :: outer) := by
        rw [declarations_append, declarations_singleton, ← List.append_assoc]
        exact hnext
      refine ih ht.good hdone fun before st' after he => ?_
      rw [List.append_assoc] at he
      exact (hbegun before st' after he).grow ht.grows

/-- Parameters are bound in the scope of a call. -/
theorem parameters_safe (h : Good current n s) {c : Construct} {ps : List Token} {vs : List Value}
    (hlen : vs.length = ps.length) (hopened : .opened r c ∈ s.notes)
    (hnames : ∀ p ∈ ps, p.lexeme ∈ c.declares.map Prod.fst) :
    Safe current n ((ps.zip vs).forM fun (p, v) => Watched.quietly (Eval.define r p.lexeme v)) s
      fun _ s' => ∀ p ∈ ps, s'.state.scopes.contains r p.lexeme = true := by
  induction ps generalizing s vs with
  | nil => exact .pure h fun p hp => nomatch hp
  | cons p ps ih =>
      cases vs with
      | nil => cases hlen
      | cons v vs =>
          have hfirst := define_safe h v hopened (hnames p (List.mem_cons_self ..))
          refine hfirst.bind fun _ t ht ⟨_, hcontains⟩ => ?_
          have hrest := ih ht.good (Nat.succ.inj hlen) (ht.grows.notes hopened)
            fun q hq => hnames q (List.mem_cons_of_mem _ hq)
          refine hrest.weaken fun _ u hu hall q hq => ?_
          rcases List.mem_cons.mp hq with rfl | hq
          · exact hu.grows.holds _ _ hcontains
          · exact hall q hq

/-- What follows the body of a call. -/
theorem result_safe (h : Good current n s) (f : Closure) (v : Value) :
    Safe current n (if f.isInitializer then Watched.quietly (Eval.loadAt f.scope 0 "this")
      else pure v) s fun _ _ => True := by
  by_cases hi : f.isInitializer = true
  · rw [if_pos hi]
    exact (loadAt_safe h "this" rfl).trivially
  · rw [if_neg hi]
    exact .pure h trivial

/-- The default function does nothing, in any scope. -/
theorem callDefault_safe (h : Good current n s) (hsize : 0 < s.state.scopes.size)
    (vs : List Value) : Safe current n (callFunction run default vs) s fun _ _ => True := by
  have hscope := newScope_safe h (.function (default : Closure).declaration)
    (p := (default : Closure).scope) hsize
  refine hscope.bind fun r t ht _ => ?_
  have hnone : ([].zip vs : List (Token × Value)) = [] := rfl
  change Safe current n (([].zip vs).forM _ >>= fun _ => _) t _
  rw [hnone]
  have hbody : Safe current n (returned (pure ())) t fun _ _ => True :=
    returned_safe (.pure ht.good trivial)
  exact hbody.bind fun v u hu _ => .pure hu.good trivial

theorem callFunction_safe (hrun : SafeStatements current run) (h : Good current n s)
    {f : Closure} (hf : f.Stays s) {vs : List Value} (hlen : vs.length = f.arity) :
    Safe current n (callFunction run f vs) s fun _ _ => True := by
  obtain ⟨frames, hstands, hbegun, hentered⟩ := hf
  have hscope := newScope_safe h (.function f.declaration) (h.sane.stands_lt hstands)
  refine hscope.bind fun r t ht ⟨hopened, hparent⟩ => ?_
  have hnames : ∀ p ∈ f.declaration.parameters,
      p.lexeme ∈ (Construct.function f.declaration).declares.map Prod.fst := by
    intro p hp
    have hmem : (p.lexeme, .variable) ∈ f.declaration.bindings :=
      List.mem_map_of_mem (f := fun p : Token => (p.lexeme, Mutability.variable)) hp
    exact List.mem_map_of_mem (f := Prod.fst) (List.mem_append_left _ hmem)
  have hparameters := parameters_safe ht.good hlen hopened hnames
  refine hparameters.bind fun _ u hu hall => ?_
  have hinside : Stands u f.home r (⟨.function f.declaration,
      f.declaration.bindings ++ declarations [], none⟩ :: frames) := by
    refine .inside (hu.grows.notes hopened) ?_ (hu.grows.parent _ _ hparent)
      ((hentered.mono ht.grows.notes).mono hu.grows.notes)
      ((hstands.grow ht.grows).grow hu.grows)
    intro x hx
    change x ∈ (f.declaration.bindings ++ []).map Prod.fst at hx
    rw [List.append_nil] at hx
    obtain ⟨d, hd, rfl⟩ := List.mem_map.mp hx
    obtain ⟨p, hp, rfl⟩ := List.mem_map.mp hd
    exact hall p hp
  have hbody := body_safe ⟨f.home, r⟩ hrun f.declaration.body hu.good hinside
    fun before st after he =>
      ((hbegun.grow ht.grows).grow hu.grows).inner (.body he)
  refine (returned_safe hbody).bind fun v x hx _ => ?_
  exact result_safe hx.good f v

theorem callValue_safe (hrun : SafeStatements current run) (h : Good current n s)
    (hsize : 0 < s.state.scopes.size) {callee : Value} {vs : List Value}
    (hlen : s.state.arity? callee = some vs.length) :
    Safe current n (callValue run callee vs) s fun _ _ => True := by
  refine .looking ?_
  cases callee with
  | function r =>
      rcases Nat.lt_or_ge r.index s.state.functions.size with hr | hr
      · exact callFunction_safe hrun h (h.sane.functions r hr) (Option.some.inj hlen).symm
      · change Safe current n (callFunction run (s.state.functions.get r) vs) s _
        rw [Arena.get_of_le _ hr]
        exact callDefault_safe h hsize vs
  | «class» c =>
      have hmake := Safe.calmly h (Eval.calm_newInstance c)
      refine hmake.bind fun i t ht _ => ?_
      unfold World.arity? at hlen
      cases hm : s.state.method? c "init" with
      | none =>
          exact .pure ht.good trivial
      | some f =>
          simp only [hm] at hlen
          have hwaits : f.Waits t := (h.sane.method hm).grow ht.grows
          refine (bound_safe ht.good hwaits i).bind fun g u hu ⟨hg, hd⟩ => ?_
          have harity : vs.length = g.arity := by
            unfold Closure.arity
            rw [hd]
            exact (Option.some.inj hlen).symm
          have hcall := callFunction_safe hrun hu.good hg harity
          exact hcall.bind fun _ x hx _ => .pure hx.good trivial
  | _ => exact .pure h trivial

/-- A class is made when the scope of its methods is known. -/
theorem makeClass_safe (h : Good current n s) {name : Token} {use : Option NameUse}
    {methods : List FunctionDecl} (hat : At s site ⟨frames, .stmt (.class name use methods)⟩)
    (hlatest : Latest n s site.home frames (.class name use methods)) (parent : Option (Ref .class))
    (hwaits : ∀ d ∈ methods, ∀ isInitializer,
      (⟨d, r, site.home, isInitializer⟩ : Closure).Waits s) :
    Safe current n (do
      let c ← Watched.quietly (Eval.newClass ⟨name.lexeme, parent, methods.foldl (fun ms d =>
        ms.insert d.displayName ⟨d, r, site.home, d.displayName == "init"⟩) {}⟩)
      Watched.quietly (Eval.define site.scope name.lexeme c)) s fun _ _ => True := by
  have hclass : Safe current n (Watched.quietly (Eval.newClass ⟨name.lexeme, parent,
      methods.foldl (fun ms d => ms.insert d.displayName
        ⟨d, r, site.home, d.displayName == "init"⟩) {}⟩)) s fun _ _ => True := by
    refine ⟨h.newClass fun x f hf => ?_, trivial⟩
    rcases find?_methods (fun d => ⟨d, r, site.home, d.displayName == "init"⟩) hf with
      hf | ⟨d, hd, -, rfl⟩
    · cases hf
    · exact hwaits d hd _
  refine hclass.bind fun c t ht _ => ?_
  have hdeclare := declare_safe ht.good c (hat.grow ht.grows) (hlatest.grow ht.grows)
    (List.mem_singleton_self _)
  exact hdeclare.trivially

/-- A class binds its name before its methods are made. -/
theorem declareClass_safe (h : Good current n s) {name : Token} {use : Option NameUse}
    {methods : List FunctionDecl} (hat : At s site ⟨frames, .stmt (.class name use methods)⟩)
    (hlatest : Latest n s site.home frames (.class name use methods)) {w : World}
    (hreached : .node .reached site (.stmt (.class name use methods)) w ∈ s.notes)
    {parent : Option (Ref .class)} (hparent : parent.isSome = use.isSome) :
    Safe current n (declareClass site name parent methods) s fun _ s' =>
      Stands s' site.home site.scope (declaring [(name.lexeme, .variable)] frames) := by
  have hnil := declare_safe h .nil hat hlatest (List.mem_singleton_self _)
  refine hnil.bind fun _ t ht ⟨_, hcontains⟩ => ?_
  have hstands : Stands t site.home site.scope (declaring [(name.lexeme, .variable)] frames) := by
    refine (hat.stands.grow ht.grows).declaring fun _ x hx => ?_
    rw [show x = name.lexeme from List.mem_singleton.mp hx]
    exact hcontains
  have hbegun := hat.begun.grow ht.grows
  cases parent with
  | none =>
      cases use with
      | some _ => cases hparent
      | none =>
          have hmake := makeClass_safe ht.good (hat.grow ht.grows) (hlatest.grow ht.grows) none
            fun d hd _ => ⟨_, hstands, hbegun.inner (.method hd), .method (ht.grows.notes hreached) hd⟩
          exact hmake.weaken fun _ u hu _ => hstands.grow hu.grows
  | some c =>
      cases use with
      | none => cases hparent
      | some use =>
          have hnew := newScope_safe ht.good (.super methods) (ht.good.sane.stands_lt hstands)
          refine hnew.bind fun r u hu ⟨hopened, hpar⟩ => ?_
          have hdefine := define_safe hu.good (.class c) hopened (List.mem_singleton_self _)
          refine hdefine.bind fun _ x hx ⟨hnotes, hsuper⟩ => ?_
          have houter := (hstands.grow hu.grows).grow hx.grows
          have hinside : Stands x site.home r
              (.parent methods :: declaring [(name.lexeme, .variable)] frames) := by
            refine .inside (hx.grows.notes hopened) ?_ (hx.grows.parent _ _ hpar)
              (.super (hx.grows.notes (hu.grows.notes (ht.grows.notes hreached)))) houter
            intro y hy
            rw [show y = "super" from List.mem_singleton.mp hy]
            exact hsuper
          have hatx := ((hat.grow ht.grows).grow hu.grows).grow hx.grows
          have hlatestx := ((hlatest.grow ht.grows).grow hu.grows).grow hx.grows
          have hmake := makeClass_safe hx.good hatx hlatestx (some c) fun d hd _ =>
            ⟨_, hinside, hatx.begun.inner (.inherited hd), .inherited (hx.grows.notes hopened) hd⟩
          exact hmake.weaken fun _ y hy _ => houter.grow hy.grows

end Watching
end
end Treewalk
