import Treewalk.Proofs.Run.Calm

/-!
# Names, objects and scopes in a run

Reading, assigning and binding names is safe where the frames know them, and so is making the
objects that keep scopes: functions, bound methods and classes.
-/
namespace Treewalk

namespace Scopes
variable {α : Type}

theorem contains_of_holderWithin {s : Scopes α} {name : String} {fuel : Nat} {r h : Ref .scope}
    (hh : s.holderWithin name fuel r = some h) : s.contains h name = true := by
  induction fuel generalizing r with
  | zero => cases hh
  | succ fuel ih =>
      unfold holderWithin at hh
      by_cases hc : s.contains r name = true
      · simp only [hc, if_true] at hh
        cases hh
        exact hc
      · simp only [hc, Bool.false_eq_true, if_false] at hh
        cases hp : (s.get r).parent with
        | none =>
            simp only [hp] at hh
            cases hh
        | some p =>
            simp only [hp] at hh
            exact ih hh

/-- What is stored goes to a scope that binds the name. -/
theorem store?_some {s s' : Scopes α} {r : Ref .scope} {name : String} {a : α}
    (h : s.store? r name a = some s') :
    ∃ holder, s.holder? r name = some holder ∧ s.contains holder name = true ∧
      s' = s.define holder name a := by
  unfold store? at h
  obtain ⟨holder, hh, rfl⟩ := Option.map_eq_some_iff.mp h
  exact ⟨holder, hh, contains_of_holderWithin hh, rfl⟩

end Scopes

/-- A method that is found is the method of some class. -/
theorem World.method?_some {w : World} {c : Ref .class} {name : String} {f : Closure}
    (h : w.method? c name = some f) : ∃ c', (w.classes.get c').methods.find? name = some f := by
  have hfuel : ∀ fuel c, w.methodWithin? name fuel c = some f →
      ∃ c', (w.classes.get c').methods.find? name = some f := by
    intro fuel
    induction fuel with
    | zero => exact fun c hc => nomatch hc
    | succ fuel ih =>
        intro c hc
        unfold World.methodWithin? at hc
        cases hm : (w.classes.get c).methods.find? name with
        | some g =>
            simp only [hm] at hc
            cases hc
            exact ⟨c, hm⟩
        | none =>
            simp only [hm] at hc
            cases hsuper : (w.classes.get c).superclass with
            | none =>
                simp only [hsuper] at hc
                cases hc
            | some c' =>
                simp only [hsuper] at hc
                exact ih c' hc
  exact hfuel _ c h

section
variable {w w' : World} {R : Closure → Closure → Prop}
  (hmethods : ∀ c name, Option.Rel R ((w.classes.get c).methods.find? name)
    ((w'.classes.get c).methods.find? name))
  (hsuper : ∀ c, (w'.classes.get c).superclass = (w.classes.get c).superclass)
include hmethods hsuper

theorem World.methodWithin?_rel (name : String) (fuel : Nat) (r : Ref .class) :
    Option.Rel R (w.methodWithin? name fuel r) (w'.methodWithin? name fuel r) := by
  induction fuel generalizing r with
  | zero => exact .none
  | succ fuel ih =>
      have hm := hmethods r name
      unfold World.methodWithin?
      dsimp only
      rw [hsuper r]
      revert hm
      generalize (w.classes.get r).methods.find? name = m
      generalize (w'.classes.get r).methods.find? name = m'
      intro hm
      cases hm with
      | some hf => exact .some hf
      | none =>
          cases (w.classes.get r).superclass with
          | some s => exact ih s
          | none => exact .none

/-- Where classes have related methods and the same superclasses, related methods are found. -/
theorem World.method?_rel (r : Ref .class) (name : String) :
    w.method? r name = none ∧ w'.method? r name = none ∨
      ∃ f f', w.method? r name = some f ∧ w'.method? r name = some f' ∧ R f f' := by
  have hm := World.methodWithin?_rel hmethods hsuper name (r.index + 1) r
  unfold World.method?
  revert hm
  generalize w.methodWithin? name (r.index + 1) r = m
  generalize w'.methodWithin? name (r.index + 1) r = m'
  intro hm
  cases hm with
  | some hf => exact .inr ⟨_, _, rfl, rfl, hf⟩
  | none => exact .inl ⟨rfl, rfl⟩

end

/-- Values take as many arguments where functions do and initializers are related. -/
theorem World.arity?_congr {w w' : World} {R : Closure → Closure → Prop}
    (hR : ∀ f f', R f f' → f'.arity = f.arity)
    (hfunctions : ∀ r, (w'.functions.get r).arity = (w.functions.get r).arity)
    (hinit : ∀ r, w.method? r "init" = none ∧ w'.method? r "init" = none ∨
      ∃ f f', w.method? r "init" = some f ∧ w'.method? r "init" = some f' ∧ R f f') (v : Value) :
    w'.arity? v = w.arity? v := by
  cases v with
  | function r => exact congrArg some (hfunctions r)
  | «class» r =>
      rcases hinit r with ⟨hm, hm'⟩ | ⟨f, f', hm, hm', hf⟩
      · simp only [World.arity?, hm, hm']
      · simp only [World.arity?, hm, hm', hR f f' hf]
  | _ => rfl

/-- Only the names of functions, classes and modules are printed. -/
theorem World.display_congr {w w' : World}
    (hfunctions : ∀ r, (w'.functions.get r).declaration.displayName =
      (w.functions.get r).declaration.displayName)
    (hclasses : ∀ r, (w'.classes.get r).name = (w.classes.get r).name)
    (hinstances : w'.instances = w.instances) (hmodules : w'.modules = w.modules) (v : Value) :
    w'.display v = w.display v := by
  cases v with
  | function r => simp only [World.display, hfunctions]
  | «class» r => exact hclasses r
  | «instance» r => simp only [World.display, hinstances, hclasses]
  | module r => simp only [World.display, hmodules]
  | _ => rfl

namespace Eval
variable {α β : Type}

theorem bind_run (p : Eval α) (f : α → Eval β) (w : World) :
    (p >>= f) w = match p w with
      | .ok a w => f a w
      | .error i w => EStateM.Result.error i w := by
  change EStateM.bind p f w = _
  unfold EStateM.bind
  cases p w <;> rfl

theorem get_run (f : World → Eval β) (w : World) :
    ((get : Eval World) >>= f) w = f w w := rfl

theorem ancestor_run (scope : Ref .scope) (hops : Nat) (w : World) :
    ancestor scope hops w =
      match w.scopes.ancestor? hops scope with
      | some r => .ok r w
      | none => .error (.crash (.shortChain hops)) w := by
  unfold ancestor
  rw [get_run]
  cases w.scopes.ancestor? hops scope <;> rfl

theorem loadAt_run (scope : Ref .scope) (hops : Nat) (name : String) {w : World} {r : Ref .scope}
    (hr : w.scopes.ancestor? hops scope = some r) :
    loadAt scope hops name w =
      match w.scopes.find? r name with
      | some v => .ok v w
      | none => .error (.crash (.missingLocal name)) w := by
  unfold loadAt
  rw [bind_run, ancestor_run, hr]
  simp only [get_run]
  cases w.scopes.find? r name <;> rfl

theorem assign_local (site : Site) {use : NameUse} {hops : Nat} (hu : use.hops = some hops)
    (v : Value) {w : World} {r : Ref .scope}
    (hr : w.scopes.ancestor? hops site.scope = some r) :
    assign site use v w =
      .ok () { w with scopes := w.scopes.define r use.name.lexeme v } := by
  unfold assign
  simp only [hu, bind_run, ancestor_run, hr]
  rfl

theorem read_global (site : Site) {use : NameUse} (hu : use.hops = none) (w : World) :
    read site use w =
      match w.scopes.load? (w.globals site.home) use.name.lexeme with
      | some v => .ok v w
      | none => .error (.error ⟨use.name, .undefinedVariable use.name.lexeme⟩) w := by
  unfold read
  simp only [hu, get_run]
  cases w.scopes.load? (w.globals site.home) use.name.lexeme <;> rfl

theorem assign_global (site : Site) {use : NameUse} (hu : use.hops = none) (v : Value)
    (w : World) :
    assign site use v w =
      match w.scopes.store? (w.globals site.home) use.name.lexeme v with
      | some scopes => .ok () { w with scopes := scopes }
      | none => .error (.error ⟨use.name, .undefinedVariable use.name.lexeme⟩) w := by
  unfold assign
  simp only [hu, get_run]
  cases w.scopes.store? (w.globals site.home) use.name.lexeme v <;> rfl

theorem superclass_run (site : Site) (use : NameUse) (w : World) : superclass site use w =
      match read site use w with
      | .ok (.class r) w => .ok r w
      | .ok _ w => .error (.error ⟨use.name, .superclassNotClass⟩) w
      | .error i w => .error i w := by
  unfold superclass
  rw [bind_run]
  cases read site use w with
  | ok v w => cases v <;> rfl
  | error i w => rfl

theorem read_local (site : Site) {use : NameUse} {hops : Nat} (hu : use.hops = some hops)
    (w : World) : read site use w = loadAt site.scope hops use.name.lexeme w := by
  unfold read
  rw [hu]

end Eval

section
variable {current : Prop} {n : Nat} {s : Watched World Event} {home : Ref .interpreter}
  {site : Site} {frames : List Frame} {r : Ref .scope}

/-- Code stands in an existing scope. -/
theorem Sane.stands_lt (h : Sane current s) (hr : Stands s home r frames) :
    r.index < s.state.scopes.size := by
  cases hr with
  | globals hi => exact (h.globals home hi).1
  | inside hopened => exact (h.opened r _ hopened).1

/-- The globals are no scope of a construct. -/
theorem Sane.not_opened (h : Sane current s) (hi : home.index < s.state.interpreters.size)
    (c : Construct) : .opened (s.state.globals home) c ∉ s.notes := fun hc =>
  (h.opened _ c hc).2.1 (h.globals home hi).2

/-- A method that is found waits for its receiver. -/
theorem Sane.method (h : Sane current s) {c : Ref .class} {name : String} {f : Closure}
    (hf : s.state.method? c name = some f) : f.Waits s := by
  obtain ⟨c', hc'⟩ := World.method?_some hf
  exact h.methods c' name f hc'

/-- A name is bound in the scope of a construct that declares it. -/
theorem Good.defineOpened (h : Good current n s) {c : Construct} {name : String} (v : Value)
    (hopened : .opened r c ∈ s.notes) (hname : name ∈ c.declares.map Prod.fst) :
    Goes current n s ⟨{ s.state with scopes := s.state.scopes.define r name v }, s.notes⟩ := by
  refine h.define v (fun c' hc' => .inl (h.sane.single r c c' hopened hc' ▸ hname)) ?_
  rintro home - hi rfl
  exact (h.sane.not_opened hi c hopened).elim

/-- A name is bound in a scope that had it. -/
theorem Good.redefine (h : Good current n s) {name : String} (v : Value)
    (hname : s.state.scopes.contains r name = true) :
    Goes current n s ⟨{ s.state with scopes := s.state.scopes.define r name v }, s.notes⟩ :=
  h.define v (fun _ _ => .inr hname) fun _ _ _ _ => .inl hname

namespace Watching

/-! ### Names -/

theorem loadAt_safe (h : Good current n s) {hops : Nat} {scope : Ref .scope} (name : String)
    (hr : s.state.scopes.ancestor? hops scope = some r) :
    Safe current n (Watched.quietly (Eval.loadAt scope hops name)) s fun _ s' => s' = s := by
  refine .quietly ?_
  rw [Eval.loadAt_run scope hops name hr]
  cases s.state.scopes.find? r name with
  | some v => exact ⟨h.here, rfl⟩
  | none => exact ⟨h.here, trivial⟩

theorem read_safe (h : Good current n s) {node : Node} {use : NameUse}
    (hat : At s site ⟨frames, node⟩) (hu : node.use? = some use) :
    Safe current n (Watched.quietly (Eval.read site use)) s fun _ s' => s' = s := by
  cases hh : use.hops with
  | some hops =>
      obtain ⟨r, f, hr, -⟩ := h.found hat hu hh
      have hload := loadAt_safe h use.name.lexeme hr
      unfold Safe Watched.quietly at hload ⊢
      rw [Eval.read_local site hh]
      exact hload
  | none =>
      refine .quietly ?_
      rw [Eval.read_global site hh]
      cases s.state.scopes.load? (s.state.globals site.home) use.name.lexeme with
      | some v => exact ⟨h.here, rfl⟩
      | none => exact ⟨h.here, trivial⟩

theorem define_safe (h : Good current n s) {c : Construct} {name : String} (v : Value)
    (hopened : .opened r c ∈ s.notes) (hname : name ∈ c.declares.map Prod.fst) :
    Safe current n (Watched.quietly (Eval.define r name v)) s fun _ s' =>
      s'.notes = s.notes ∧ s'.state.scopes.contains r name = true := by
  have hdefine := h.defineOpened v hopened hname
  refine ⟨hdefine, rfl, ?_⟩
  exact (Scopes.contains_define _ r name name v (h.sane.opened r c hopened).1).mpr (.inr ⟨rfl, rfl⟩)

/-- A statement binds what it declares. -/
theorem declare_safe (h : Good current n s) {t : Stmt} {name : String} {m : Mutability} (v : Value)
    (hat : At s site ⟨frames, .stmt t⟩) (hlatest : Latest n s site.home frames t)
    (hd : (name, m) ∈ t.declares) :
    Safe current n (Watched.quietly (Eval.define site.scope name v)) s fun _ s' =>
      s'.notes = s.notes ∧ s'.state.scopes.contains site.scope name = true := by
  obtain ⟨-, hhoused⟩ := h.told.fits hat.begun
  have hstands := hat.stands
  generalize site.scope = r at hstands ⊢
  cases hstands with
  | globals hi =>
      have hlt := (h.sane.globals _ hi).1
      have hname : ∀ c, .opened (s.state.globals site.home) c ∈ s.notes →
          name ∈ c.declares.map Prod.fst ∨
            s.state.scopes.contains (s.state.globals site.home) name = true :=
        fun c hc => (h.sane.not_opened hi c hc).elim
      have hdefine := h.define v hname fun home hn hlt hglobals => by
        obtain rfl := h.sane.apart _ _ hlt hi hglobals
        obtain ⟨st, hst, hbinds⟩ := hlatest rfl hn
        exact .inr ⟨st, hst, hbinds (Stmt.mem_binds hd)⟩
      have hcontains := (Scopes.contains_define _ _ name name v hlt).mpr (.inr ⟨rfl, rfl⟩)
      exact ⟨hdefine, rfl, hcontains⟩
  | @inside _ p f outer hopened =>
      have hname := List.mem_map_of_mem (f := Prod.fst) (hhoused.stmt t rfl f outer rfl _ hd)
      exact define_safe h v hopened hname

/-- The value of an assignment is stored in a scope that declares the name. -/
theorem assign_safe (h : Good current n s) {use : NameUse} {e : Expr} (v : Value)
    (hat : At s site ⟨frames, .expr (.assign use e)⟩) :
    Safe current n (Watched.quietly (Eval.assign site use v)) s fun _ _ => True := by
  refine .quietly ?_
  cases hh : use.hops with
  | some hops =>
      obtain ⟨r, f, hr, hf, hknows, hopened, hname, -⟩ := h.found hat rfl hh
      rw [Eval.assign_local site hh v hr]
      exact ⟨h.defineOpened v hopened hname, trivial⟩
  | none =>
      rw [Eval.assign_global site hh]
      cases hstore : s.state.scopes.store? (s.state.globals site.home) use.name.lexeme v with
      | some scopes =>
          obtain ⟨holder, -, hcontains, rfl⟩ := Scopes.store?_some hstore
          exact ⟨h.redefine v hcontains, trivial⟩
      | none => exact ⟨h.here, trivial⟩

theorem setProperty_safe (h : Good current n s) (o : Value) (name : Token) (v : Value) :
    Safe current n (Watched.quietly (Eval.setProperty o name v)) s fun _ _ => True := by
  refine .quietly ?_
  cases o with
  | «instance» r =>
      exact ⟨h.alike (.intro rfl rfl rfl rfl (fun _ => rfl) (fun _ => rfl) (fun _ => rfl) fun _ => rfl), trivial⟩
  | module r =>
      have hset : Eval.setProperty (.module r) name v s.state =
          (if s.state.scopes.contains (s.state.globals (s.state.modules.get r).home) name.lexeme
            then Eval.define (s.state.globals (s.state.modules.get r).home) name.lexeme v
            else Eval.fail name (.noMember (s.state.modules.get r).name name.lexeme) : Eval Unit)
            s.state := rfl
      rw [hset]
      by_cases hc : s.state.scopes.contains (s.state.globals (s.state.modules.get r).home)
          name.lexeme = true
      · rw [if_pos hc]
        exact ⟨h.redefine v hc, trivial⟩
      · rw [if_neg hc]
        exact ⟨h.here, trivial⟩
  | _ => exact ⟨h.here, trivial⟩

/-! ### Objects -/

theorem newScope_safe (h : Good current n s) (c : Construct) {p : Ref .scope}
    (hp : p.index < s.state.scopes.size) :
    Safe current n (newScope c p) s fun r s' =>
      .opened r c ∈ s'.notes ∧ (s'.state.scopes.get r).parent = some p := by
  refine ⟨h.open c hp, List.mem_cons_self .., ?_⟩
  change ((s.state.scopes.addChild (some p)).get s.state.scopes.next).parent = some p
  rw [Scopes.get_addChild, if_pos rfl]

theorem newFunction_safe (h : Good current n s) {f : Closure} (hf : f.Stays s) :
    Safe current n (Watched.quietly (Eval.newFunction f)) s fun _ _ => True :=
  ⟨h.newFunction hf, trivial⟩

/-- A method is bound in a scope that holds its receiver. -/
theorem bound_safe (h : Good current n s) {f : Closure} (hf : f.Waits s)
    (receiver : Ref .instance) :
    Safe current n (bound f receiver) s fun g s' =>
      g.Stays s' ∧ g.declaration = f.declaration := by
  obtain ⟨frames, hstands, hbegun, hentered⟩ := hf
  refine (newScope_safe h (.this f.declaration) (h.sane.stands_lt hstands)).bind ?_
  rintro r t ht ⟨hopened, hparent⟩
  have hname : "this" ∈ (Construct.this f.declaration).declares.map Prod.fst :=
    List.mem_singleton_self _
  refine (define_safe ht.good (.instance receiver) hopened hname).bind ?_
  rintro _ u hu ⟨hnotes, hcontains⟩
  refine .pure hu.good ⟨⟨.receiver f.declaration :: frames, ?_, ?_, ?_⟩, rfl⟩
  · refine .inside ?_ ?_ (hu.grows.parent _ _ hparent) ?_ ((hstands.grow ht.grows).grow hu.grows)
    · exact hu.grows.notes hopened
    · intro x hx
      rw [show x = "this" from List.mem_singleton.mp hx]
      exact hcontains
    · exact (hentered.mono ht.grows.notes).mono hu.grows.notes
  · exact (hbegun.grow ht.grows).grow hu.grows
  · exact .bound (hu.grows.notes hopened)

theorem property_safe (h : Good current n s) (o : Value) (name : Token) :
    Safe current n (property o name) s fun _ _ => True := by
  refine .looking ?_
  cases o with
  | «instance» r =>
      cases hfield : (s.state.instances.get r).fields.find? name.lexeme with
      | some v =>
          simp only [hfield]
          exact .pure h trivial
      | none =>
          cases hm : s.state.method? (s.state.instances.get r).classRef name.lexeme with
          | some f =>
              simp only [hfield, hm]
              refine (bound_safe h (h.sane.method hm) r).bind ?_
              rintro g t ht ⟨hg, -⟩
              exact newFunction_safe ht.good hg
          | none =>
              simp only [hfield, hm]
              exact (Safe.calmly h (Eval.calm_fail _ _)).trivially
  | module r =>
      cases hv : s.state.scopes.find? (s.state.globals (s.state.modules.get r).home)
          name.lexeme with
      | some v =>
          simp only [hv]
          exact .pure h trivial
      | none =>
          simp only [hv]
          exact (Safe.calmly h (Eval.calm_fail _ _)).trivially
  | _ => exact (Safe.calmly h (Eval.calm_fail _ _)).trivially

theorem superMethod_safe (h : Good current n s) {use : NameUse} {method : Token}
    (hat : At s site ⟨frames, .expr (.super use method)⟩) :
    Safe current n (superMethod site use method) s fun _ _ => True := by
  have hcrash : Safe current n (Watched.quietly (Eval.crash (.missingLocal "super") : Eval Value)) s
      fun _ _ => True := ⟨h.here, trivial⟩
  unfold superMethod
  cases hh : use.hops with
  | none => exact hcrash
  | some hops =>
      obtain ⟨r, f, hr, hf, -⟩ := h.found hat rfl hh
      -- The receiver stands inside the superclass, so its scope exists as well.
      have hlt : hops - 1 < frames.length :=
        Nat.lt_of_le_of_lt (Nat.sub_le hops 1) (List.getElem?_eq_some_iff.mp hf).1
      obtain ⟨r', hr', -⟩ := hat.stands.ancestor (List.getElem?_eq_getElem hlt)
      refine (loadAt_safe h "super" hr).bind fun superclass t ht hts => ?_
      subst hts
      refine (loadAt_safe h "this" hr').bind fun receiver u hu hus => ?_
      subst hus
      cases superclass with
      | «class» c =>
          cases receiver with
          | «instance» i =>
              refine .looking ?_
              cases hm : u.state.method? c method.lexeme with
              | some g =>
                  refine (bound_safe h (h.sane.method hm) i).bind ?_
                  rintro g' t ht ⟨hg, -⟩
                  exact newFunction_safe ht.good hg
              | none => exact (Safe.calmly h (Eval.calm_fail _ _)).trivially
          | _ => exact hcrash
      | _ => exact hcrash

/-- The superclass is read where the class statement stands. -/
theorem superclass_safe (h : Good current n s) {name : Token} {use : NameUse}
    {methods : List FunctionDecl}
    (hat : At s site ⟨frames, .stmt (.class name (some use) methods)⟩) :
    Safe current n (superclass site use) s fun _ _ => True := by
  have huse : At s site ⟨frames, .expr (.name use)⟩ := hat.part (List.mem_singleton_self _)
  refine .marking h huse fun t ht hts _ => ?_
  have hread := read_safe ht.good (huse.grow ht.grows) rfl
  unfold Safe Watched.quietly at hread ⊢
  rw [Eval.superclass_run]
  cases hr : Eval.read site use t.state with
  | ok v w =>
      rw [hr] at hread
      cases v with
      | «class» r => exact ⟨hread.1, trivial⟩
      | _ => exact ⟨hread.1, trivial⟩
  | error i w =>
      rw [hr] at hread
      exact hread

end Watching
end
end Treewalk
