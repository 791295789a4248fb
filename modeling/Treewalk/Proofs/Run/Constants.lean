import Mathlib.Data.List.Infix
import Mathlib.Data.List.Nodup
import Treewalk.Proofs.Run.Environments

/-!
# Constants

Assignments to constants are errors before a unit runs, but only to constants that are declared
where name resolution comes to the assignment. What is assigned later can therefore reach a constant
in no more than three ways: from its own initial value, from a statement that began before the
declaration of a global constant did, and through a module.
-/
namespace Treewalk

namespace Scopes
variable {α : Type}

/-- Binding a name in a scope leaves every other name and scope as it was. -/
theorem find?_define_of_ne (s : Scopes α) {r r' : Ref .scope} {name x : String} (a : α)
    (h : ¬(r = r' ∧ name = x)) : (s.define r name a).find? r' x = s.find? r' x := by
  by_cases hr : r = r'
  · subst hr
    rcases Nat.lt_or_ge r.index s.size with hlt | hge
    · unfold find? define
      rw [Arena.get_set_self _ _ hlt, Bindings.find?_insert, if_neg fun hx => h ⟨rfl, hx⟩]
    · rw [define, Arena.set_of_le _ _ hge]
  · unfold find?
    rw [get_define_of_ne _ _ _ hr]

/-- A scope without a parent is the only one outward. -/
theorem holder?_of_outermost {s : Scopes α} {r holder : Ref .scope} {name : String}
    (hp : (s.get r).parent = none) (h : s.holder? r name = some holder) : holder = r := by
  unfold holder? holderWithin at h
  by_cases hc : s.contains r name = true
  · simp only [hc, if_true] at h
    exact (Option.some.inj h).symm
  · simp only [hc, Bool.false_eq_true, if_false, hp] at h
    cases h

end Scopes

/-- A name is declared in a construct in one way only. -/
theorem Construct.Distinct.unique {c : Construct} (h : c.Distinct) {x : String} {m m' : Mutability}
    (hm : (x, m) ∈ c.declares) (hm' : (x, m') ∈ c.declares) : m = m' :=
  congrArg Prod.snd (List.inj_on_of_nodup_map h hm hm' rfl)

/-- What an assignment to a variable or a property does once its value is known. -/
def Moment.write (m : Moment) (site : Site) (n : Node) : Eval Unit :=
  match m, n with
  | .storing v, .expr (.assign use _) => Eval.assign site use v
  | .setting o v, .expr (.set _ name _) => Eval.setProperty o name v
  | _, _ => pure ()

/-- A statement `st` of a unit began in an interpreter after a declaration `d` had begun there. -/
def BeganAfter (notes : List Event) (home : Ref .interpreter) (d st : Stmt) : Prop :=
  ∃ later text mid text' earlier,
    notes = later ++ .began home text st :: (mid ++ .began home text' d :: earlier)

/-- The ways in which a constant, declared at a site, can be written later. -/
inductive LateWrite (notes : List Event) (declared : Site) (token : Token) (initial : Option Expr)
    (w : World) (site : Site) : Moment → Node → Prop
  /-- The assignment stands in the initial value of the constant. -/
  | initial {v : Value} {use : NameUse} {e e' : Expr} {hops : Nat} {text : UnitText} {st : Stmt}
      {frames outer : List Frame} {token' : Token} :
      use.hops = some hops → use.name.lexeme = token.lexeme →
      w.scopes.ancestor? hops site.scope = some declared.scope →
      .began site.home text st ∈ notes →
      Within ⟨[], .stmt st⟩ ⟨outer, .stmt (.var .constant token' (some e'))⟩ →
      token'.lexeme = token.lexeme → frames.drop hops = beginning token.lexeme outer →
      Within ⟨beginning token.lexeme outer, .expr e'⟩ ⟨frames, .expr (.assign use e)⟩ →
      LateWrite notes declared token initial w site (.storing v) (.expr (.assign use e))
  /-- The constant is global, and no statement in which the assignment stands began after it. -/
  | earlier {v : Value} {use : NameUse} {e : Expr} {text text' : UnitText} {st : Stmt}
      {frames : List Frame} :
      use.hops = none → use.name.lexeme = token.lexeme →
      declared.scope = w.globals declared.home → site.home = declared.home →
      .began declared.home text' (.var .constant token initial) ∈ notes →
      .began site.home text st ∈ notes →
      Within ⟨[], .stmt st⟩ ⟨frames, .expr (.assign use e)⟩ →
      (∀ st frames, Within ⟨[], .stmt st⟩ ⟨frames, .expr (.assign use e)⟩ →
        ¬BeganAfter notes site.home (.var .constant token initial) st) →
      LateWrite notes declared token initial w site (.storing v) (.expr (.assign use e))
  /-- The constant is a member of a module, which is written through the module. -/
  | member {v : Value} {r : Ref .module} {name : Token} {object e : Expr} :
      declared.scope = w.globals declared.home → (w.modules.get r).home = declared.home →
      name.lexeme = token.lexeme →
      LateWrite notes declared token initial w site (.setting (.module r) v)
        (.expr (.set object name e))

/-- Where a constant was declared: among the globals, or in the scope of a construct that declares
it. -/
inductive Declared (notes : List Event) (declared : Site) (token : Token) (initial : Option Expr)
    (w : World) : Prop
  | global {text : UnitText} : declared.scope = w.globals declared.home →
      declared.home.index < w.interpreters.size →
      .began declared.home text (.var .constant token initial) ∈ notes →
      Declared notes declared token initial w
  | inside {c : Construct} : .opened declared.scope c ∈ notes →
      (token.lexeme, .constant) ∈ c.declares → Declared notes declared token initial w

section
variable {notes earlier : List Event} {declared site : Site} {token : Token}
  {initial : Option Expr} {w w₀ : World} {frames frames₀ : List Frame} {n : Node}

theorem constant_declared (h : Sane True ⟨w, notes⟩) (hsub : earlier ⊆ notes)
    (hnoted : .node .declared declared (.stmt (.var .constant token initial)) w₀ ∈ notes)
    (htold : Told True earlier)
    (hat : At ⟨w₀, earlier⟩ declared ⟨frames₀, .stmt (.var .constant token initial)⟩) :
    Declared notes declared token initial w := by
  obtain ⟨text, st, hb, hwithin⟩ := hat.begun
  obtain ⟨K, hfits⟩ := htold.everywhere hb
  have hpast := h.past _ _ _ _ hnoted
  have hstands := hat.stands
  generalize hscope : declared.scope = r at hstands
  cases hstands with
  | globals hi =>
      have hscope' : declared.scope = w.globals declared.home :=
        hscope.trans (hpast.globals _ hi).symm
      have hlt := Nat.lt_of_lt_of_le hi hpast.interpreters
      -- Outside all scopes, a declaration is a statement of its unit.
      rcases hwithin.outside hfits rfl rfl with hst | hnone
      · rw [← hst] at hb
        exact .global hscope' hlt (hsub hb)
      · cases hnone
  | @inside _ p f outer hopened =>
      have hhoused := hwithin.housed hfits
      have hdeclares := hhoused.stmt _ rfl f outer rfl (token.lexeme, .constant)
        (List.mem_singleton_self _)
      rw [← hscope] at hopened
      exact .inside (hsub hopened) hdeclares

/-- A local assignment reaches a local constant from the initial value of the constant only. -/
theorem late_local (h : Good True 0 ⟨w, notes⟩) {v : Value} {use : NameUse} {e : Expr} {hops : Nat}
    (hat : At ⟨w, notes⟩ site ⟨frames, .expr (.assign use e)⟩) (hh : use.hops = some hops)
    {c : Construct} (hopened : .opened declared.scope c ∈ notes)
    (hc : (token.lexeme, .constant) ∈ c.declares) (hname : use.name.lexeme = token.lexeme)
    (hr : w.scopes.ancestor? hops site.scope = some declared.scope) :
    LateWrite notes declared token initial w site (.storing v) (.expr (.assign use e)) := by
  obtain ⟨text, st, hb, hwithin⟩ := hat.begun
  obtain ⟨K, hfits⟩ := h.told.everywhere hb
  have hhoused := hwithin.housed hfits
  have hassigns : use.Assigns K frames := (hfits _ hwithin).1
  obtain ⟨f, hf, hknows, hfree⟩ := hassigns.1 hops hh
  obtain ⟨r, hr', hopened', -⟩ := hat.stands.ancestor hf
  have hscope : r = declared.scope := Option.some.inj (hr'.symm.trans hr)
  rw [hscope] at hopened'
  obtain rfl : f.construct = c := h.sane.single _ _ _ hopened' hopened
  have hframe : f.Housed := hhoused.frames f (List.mem_of_getElem? hf)
  rw [hname] at hknows hfree
  rcases hknows with hbound | hpending
  · obtain ⟨⟨x, m⟩, hd, rfl⟩ := List.mem_map.mp hbound
    have hm : m = .constant := hframe.distinct.unique (hframe.bound _ hd) hc
    rw [hm] at hd
    exact (hfree hd).elim
  · obtain ⟨outer, m, token', e', hvar, htoken, hdrop, hinside⟩ := hwithin.initial hf hpending
    have hhoused' := hvar.housed hfits
    have hsame : ∃ g rest, outer = g :: rest ∧ g.construct = f.construct := by
      have hdrop' : frames.drop hops = beginning token.lexeme outer := hdrop
      obtain ⟨hlt, hget⟩ := List.getElem?_eq_some_iff.mp hf
      rw [List.drop_eq_getElem_cons hlt] at hdrop'
      cases outer with
      | nil => cases hdrop'
      | cons g rest =>
          have hhead := (List.cons.inj hdrop').1
          refine ⟨g, rest, rfl, ?_⟩
          rw [← hget]
          exact (congrArg Frame.construct hhead).symm
    obtain ⟨g, rest, rfl, hg⟩ := hsame
    have hdeclared := hhoused'.stmt _ rfl g rest rfl (token'.lexeme, m) (List.mem_singleton_self _)
    rw [htoken, hg] at hdeclared
    have hm : m = .constant := hframe.distinct.unique hdeclared hc
    rw [hm] at hvar
    exact .initial hh hname hr hb hvar htoken hdrop hinside

/-- A global assignment in a statement that began after a constant is no assignment to it. -/
theorem late_global (h : Told True notes) {use : NameUse} {e : Expr} (hh : use.hops = none)
    (hname : use.name.lexeme = token.lexeme) {st : Stmt}
    (hwithin : Within ⟨[], .stmt st⟩ ⟨frames, .expr (.assign use e)⟩) :
    ¬BeganAfter notes site.home (.var .constant token initial) st := by
  rintro ⟨later, text, mid, text', earlier', rfl⟩
  obtain ⟨hok, before, after, he, hdeclared⟩ := h.split
  have hfits : use.Assigns (text.constants ++ constantNames (declarations before)) frames :=
    (text.placed hok he _ hwithin).fits.1
  have hfree := hfits.2 hh
  rw [hname, List.mem_append, mem_constantNames] at hfree
  have hb : .began site.home text' (.var .constant token initial) ∈
      mid ++ .began site.home text' (.var .constant token initial) :: earlier' :=
    List.mem_append_right _ (List.mem_cons_self ..)
  exact hfree (hdeclared trivial text' token initial hb)

theorem assign_keeps (h : Good True 0 ⟨w, notes⟩)
    (hdeclared : Declared notes declared token initial w)
    {v : Value} {use : NameUse} {e : Expr}
    (hat : At ⟨w, notes⟩ site ⟨frames, .expr (.assign use e)⟩) {w' : World}
    (hw : Eval.assign site use v w = .ok () w') :
    w'.scopes.find? declared.scope token.lexeme = w.scopes.find? declared.scope token.lexeme ∨
      LateWrite notes declared token initial w site (.storing v) (.expr (.assign use e)) := by
  -- With hops the slot is in a scope that was opened; without, among globals, which never were.
  cases hh : use.hops with
  | some hops =>
      obtain ⟨r, f, hr, -, -, hopened, -⟩ := h.found hat rfl hh
      rw [Eval.assign_local site hh v hr] at hw
      cases hw
      by_cases hslot : r = declared.scope ∧ use.name.lexeme = token.lexeme
      · obtain ⟨rfl, hname⟩ := hslot
        cases hdeclared with
        | global hglobal hi _ =>
            rw [hglobal] at hopened
            exact (h.sane.not_opened hi _ hopened).elim
        | inside hopened' hc => exact .inr (late_local h hat hh hopened' hc hname hr)
      · exact .inl (Scopes.find?_define_of_ne _ v hslot)
  | none =>
      rw [Eval.assign_global site hh] at hw
      have hi : site.home.index < w.interpreters.size := hat.stands.lt
      cases hstore : w.scopes.store? (w.globals site.home) use.name.lexeme v with
      | none =>
          rw [hstore] at hw
          cases hw
      | some scopes =>
          rw [hstore] at hw
          cases hw
          obtain ⟨holder, hholder, -, rfl⟩ := Scopes.store?_some hstore
          have hglobals := Scopes.holder?_of_outermost (h.sane.globals _ hi).2 hholder
          by_cases hslot : holder = declared.scope ∧ use.name.lexeme = token.lexeme
          · obtain ⟨hscope, hname⟩ := hslot
            cases hdeclared with
            | global hglobal hi' hb' =>
                have hhome := h.sane.apart _ _ hi hi' (hglobals.symm.trans (hscope.trans hglobal))
                obtain ⟨text, st, hb, hwithin⟩ := hat.begun
                exact .inr (.earlier hh hname hglobal hhome hb' hb hwithin fun st frames hin =>
                  late_global h.told hh hname hin)
            | inside hopened _ =>
                rw [← hscope, hglobals] at hopened
                exact (h.sane.not_opened hi _ hopened).elim
          · exact .inl (Scopes.find?_define_of_ne _ v hslot)

theorem setProperty_keeps (h : Good True 0 ⟨w, notes⟩) (hsome : 0 < w.interpreters.size)
    (hdeclared : Declared notes declared token initial w)
    {o v : Value} {object e : Expr} {name : Token} {w' : World}
    (hw : Eval.setProperty o name v w = .ok () w') :
    w'.scopes.find? declared.scope token.lexeme = w.scopes.find? declared.scope token.lexeme ∨
      LateWrite notes declared token initial w site (.setting o v) (.expr (.set object name e)) := by
  cases o with
  | «instance» r =>
      cases hw
      exact .inl rfl
  | module r =>
      have hset : Eval.setProperty (.module r) name v w =
          (if w.scopes.contains (w.globals (w.modules.get r).home) name.lexeme
            then Eval.define (w.globals (w.modules.get r).home) name.lexeme v
            else Eval.fail name (.noMember (w.modules.get r).name name.lexeme) : Eval Unit) w := rfl
      rw [hset] at hw
      by_cases hc : w.scopes.contains (w.globals (w.modules.get r).home) name.lexeme = true
      · rw [if_pos hc] at hw
        cases hw
        by_cases hslot : w.globals (w.modules.get r).home = declared.scope ∧
            name.lexeme = token.lexeme
        · obtain ⟨hscope, hname⟩ := hslot
          have hi : (w.modules.get r).home.index < w.interpreters.size := by
            rcases h.sane.modules r with hzero | hlt
            · rw [hzero]
              exact hsome
            · exact hlt
          cases hdeclared with
          | global hglobal hi' _ =>
              have hhome := h.sane.apart _ _ hi hi' (hscope.trans hglobal)
              exact .inr (.member hglobal hhome hname)
          | inside hopened _ =>
              rw [← hscope] at hopened
              exact (h.sane.not_opened hi _ hopened).elim
        · exact .inl (Scopes.find?_define_of_ne _ v hslot)
      · rw [if_neg hc] at hw
        cases hw
  | _ => cases hw

end

/-- In a session in which units are executed as they are prepared, what is assigned after a constant
has been declared leaves the constant as it is, but for the ways listed. -/
theorem constants_stay {steps : List SessionStep} (hcurrent : ∀ step ∈ steps, step.Current)
    {later mid earlier : List Event} {m : Moment} {site declared : Site} {n : Node}
    {w w₀ w' : World} {token : Token} {initial : Option Expr}
    (h : (Session.watch steps).notes = later ++ .node m site n w :: (mid ++
      .node .declared declared (.stmt (.var .constant token initial)) w₀ :: earlier))
    (hw : m.write site n w = .ok () w') :
    w'.scopes.find? declared.scope token.lexeme = w.scopes.find? declared.scope token.lexeme ∨
      LateWrite (mid ++ .node .declared declared (.stmt (.var .constant token initial)) w₀ ::
        earlier) declared token initial w site m n := by
  obtain ⟨hgood, frames, hat⟩ := Session.noted (fun _ : True => hcurrent) h
  obtain ⟨-, frames₀, hat₀⟩ := hgood.told.split
  have hnoted : .node .declared declared (.stmt (.var .constant token initial)) w₀ ∈
      mid ++ .node .declared declared (.stmt (.var .constant token initial)) w₀ :: earlier :=
    List.mem_append_right _ (List.mem_cons_self ..)
  have hsub : earlier ⊆
      mid ++ .node .declared declared (.stmt (.var .constant token initial)) w₀ :: earlier :=
    fun _ hx => List.mem_append_right _ (List.mem_cons_of_mem _ hx)
  have hdeclared := constant_declared hgood.sane hsub hnoted hgood.told.earlier hat₀
  have hsome : 0 < w.interpreters.size := Nat.zero_lt_of_lt hat.stands.lt
  -- Only these two write to a scope that exists; everything else that is noted writes nothing.
  unfold Moment.write at hw
  split at hw
  · exact assign_keeps hgood hdeclared hat hw
  · exact setProperty_keeps hgood hsome hdeclared hw
  · cases hw
    exact .inl rfl

/-- Whether the last note is of an assignment, after the declaration of a constant, that succeeds
and passes a check of the slot of the constant before and after. -/
def assignsLater (check : NameUse → Option Value → Option Value → Bool) : List Event → Bool
  | .node (.storing v) site (.expr (.assign use _)) w :: notes => notes.any fun
      | .node .declared declared (.stmt (.var .constant token _)) _ =>
          match Eval.assign site use v w with
          | .ok _ w' => check use (w.scopes.find? declared.scope token.lexeme)
              (w'.scopes.find? declared.scope token.lexeme)
          | .error _ _ => false
      | _ => false
  | _ => false

theorem exists_assignsLater {notes : List Event}
    {check : NameUse → Option Value → Option Value → Bool}
    (h : notes.tails.any (assignsLater check) = true) :
    ∃ later mid earlier v site use e w w' declared token initial w₀,
      notes = later ++ .node (.storing v) site (.expr (.assign use e)) w :: (mid ++
        .node .declared declared (.stmt (.var .constant token initial)) w₀ :: earlier) ∧
      Eval.assign site use v w = .ok () w' ∧
      check use (w.scopes.find? declared.scope token.lexeme)
        (w'.scopes.find? declared.scope token.lexeme) = true := by
  obtain ⟨tail, htail, hwrites⟩ := List.any_eq_true.mp h
  obtain ⟨later, rfl⟩ := (List.mem_tails _ _).mp htail
  unfold assignsLater at hwrites
  split at hwrites
  · next v site use e w rest =>
      obtain ⟨d, hd, hcheck⟩ := List.any_eq_true.mp hwrites
      obtain ⟨mid, earlier, rfl⟩ := List.append_of_mem hd
      split at hcheck
      · next declared token initial w₀ =>
          split at hcheck
          · next u w' hw =>
              exact ⟨later, mid, earlier, v, site, use, e, w, w', declared, token, initial, w₀, rfl,
                hw, hcheck⟩
          · cases hcheck
      · cases hcheck
  · cases hwrites

/-- A variable of the same name in a block is assigned to instead of the constant. -/
theorem constants_stay_shadowed : ∃ later mid earlier v site use e w w' declared token initial w₀,
    (Session.watch (Session.script
      "const c = true; \x7b var c = nil; c = false; \x7d")).notes =
      later ++ .node (.storing v) site (.expr (.assign use e)) w :: (mid ++
        .node .declared declared (.stmt (.var .constant token initial)) w₀ :: earlier) ∧
    use.name.lexeme = "c" ∧ Eval.assign site use v w = .ok () w' ∧
    (w'.scopes.find? declared.scope token.lexeme = w.scopes.find? declared.scope token.lexeme ∨
      LateWrite (mid ++ .node .declared declared (.stmt (.var .constant token initial)) w₀ ::
        earlier) declared token initial w site (.storing v) (.expr (.assign use e))) := by
  have hwrites : (Session.watch (Session.script
      "const c = true; \x7b var c = nil; c = false; \x7d")).notes.tails.any
      (assignsLater fun use _ _ => use.name.lexeme == "c") = true := by decide +kernel
  obtain ⟨later, mid, earlier, v, site, use, e, w, w', declared, token, initial, w₀, hnotes, hw,
    hcheck⟩ := exists_assignsLater hwrites
  have hcurrent : ∀ step ∈ Session.script "const c = true; \x7b var c = nil; c = false; \x7d",
      step.Current := by
    intro step hstep
    simp only [Session.script, List.mem_cons, List.not_mem_nil, or_false] at hstep
    rcases hstep with rfl | rfl | rfl <;> trivial
  have hstay := constants_stay hcurrent hnotes hw
  exact ⟨later, mid, earlier, v, site, use, e, w, w', declared, token, initial, w₀, hnotes,
    eq_of_beq hcheck, hw, hstay⟩

/-- Whether a slot held `true` before and holds `nil` after. -/
def wasTrueIsNil : Option Value → Option Value → Bool
  | some (.bool true), some .nil => true
  | _, _ => false

/-- A function that was declared before a global constant can still assign to it. -/
theorem constant_overwritten : ∃ later mid earlier v site use e w w' declared token initial w₀,
    (Session.watch (Session.script
      "fun f() \x7b c = nil; \x7d const c = true; f();")).notes =
      later ++ .node (.storing v) site (.expr (.assign use e)) w :: (mid ++
        .node .declared declared (.stmt (.var .constant token initial)) w₀ :: earlier) ∧
    Eval.assign site use v w = .ok () w' ∧
    w.scopes.find? declared.scope token.lexeme = some (.bool true) ∧
    w'.scopes.find? declared.scope token.lexeme = some .nil := by
  have hwrites : (Session.watch (Session.script
      "fun f() \x7b c = nil; \x7d const c = true; f();")).notes.tails.any
      (assignsLater fun _ => wasTrueIsNil) = true := by decide +kernel
  obtain ⟨later, mid, earlier, v, site, use, e, w, w', declared, token, initial, w₀, hnotes, hw,
    hcheck⟩ := exists_assignsLater hwrites
  unfold wasTrueIsNil at hcheck
  split at hcheck
  · next hbefore hafter =>
      exact ⟨later, mid, earlier, v, site, use, e, w, w', declared, token, initial, w₀, hnotes, hw,
        hbefore, hafter⟩
  · cases hcheck

end Treewalk
