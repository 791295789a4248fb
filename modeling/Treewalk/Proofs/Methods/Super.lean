import Treewalk.Proofs.Scopes.Subclasses
import Treewalk.Proofs.Methods.Binding

/-!
# What `super` finds

Where the hops of a `super` lead to the scope of the methods of its class, this scope holds what the
superclass clause was read as when the class statement was executed, and the scope inside of it
holds the receiver of the method, which is an instance of the class or of one that inherits from it.
Nothing but an import that binds the name `super` can lead it elsewhere, and then it crashes.
-/
namespace Treewalk

/-- A `super` finds the superclass `c` of its class and the receiver `i` of its method: `a` is the
scope of the receiver, and `b` that of the methods of the class. -/
structure FindsSuper (steps : List SessionStep) (earlier : List Event) (site : Site) (w : World)
    (hops : Nat) (methods : List FunctionDecl) (f : FunctionDecl) (a b : Ref .scope)
    (i : Ref .instance) (c : Ref .class) : Prop where
  receiver : w.scopes.ancestor? hops site.scope = some a ∧
    w.scopes.find? a "this" = some (.instance i)
  superclass : w.scopes.ancestor? (hops + 1) site.scope = some b ∧
    w.scopes.find? b "super" = some (.class c)
  opened : .opened a (.this f) ∈ earlier ∧ .opened b (.super methods) ∈ earlier
  /-- The class statement was reached and its superclass read right before the scope was made. -/
  read : ∃ later site' name earlier', (Session.watch steps).notes =
    later ++ .opened b (.super methods) :: earlier' ∧ Inheriting earlier' site' name methods c
  /-- The methods of the class that the statement made run in the scope. -/
  inherits : ∃ k name g, w.Inherits (w.instances.get i).classRef k ∧
    (w.classes.get k).methods.find? name = some g ∧ g.scope = b ∧
    (w.classes.get k).superclass = some c

section
variable {steps : List SessionStep} {later earlier : List Event} {site : Site} {use : NameUse}
  {method : Token} {w : World}

/-- What scopes were made for they hold whenever something is noted. -/
theorem Session.shows {n : Node} {m : Moment}
    (h : (Session.watch steps).notes = later ++ .node m site n w :: earlier) {r : Ref .scope}
    {c : Construct} (hc : .opened r c ∈ earlier) :
    (Session.watch steps).Shows r c ∧ (Session.watch steps).state.scopes.held r = w.scopes.held r := by
  have hkept := Session.watch_kept steps
  have hnoted := hkept.noted _ _ _ _ (h ▸ List.mem_append_right _ (List.mem_cons_self ..))
  have hgood := (Session.noted (fun hc : False => hc.elim) h).1
  refine ⟨hkept.opened r c ?_, hnoted.retains.held r (hgood.sane.opened r c hc).1⟩
  exact h ▸ List.mem_append_right _ (List.mem_cons_of_mem _ hc)

/-- The scopes in which a method of a class with a superclass runs hold its receiver and the
superclass. -/
theorem findsSuper {n : Node} {st : Stmt} {frames : List Frame}
    (h : (Session.watch steps).notes = later ++ .node .reached site n w :: earlier)
    (hat : At ⟨w, earlier⟩ site ⟨frames, n⟩) {hops : Nat} {outer : List Frame} {name : Token}
    {sup : NameUse} {methods : List FunctionDecl} {f : FunctionDecl}
    (hin : InSubclass st ⟨frames, n⟩ hops outer name sup methods f) :
    ∃ a b i c, FindsSuper steps earlier site w hops methods f a b i c := by
  obtain ⟨a, ha, hthis, -⟩ := hat.stands.ancestor hin.getElem?_receiver
  obtain ⟨b, hb, hsuper, -⟩ := hat.stands.ancestor hin.getElem?_parent
  obtain ⟨⟨i, hi⟩, hheld⟩ := Session.shows h hthis
  obtain ⟨⟨c, hc, hread⟩, hheld'⟩ := Session.shows h hsuper
  have hreceiver : w.scopes.receiver? a = some i := (congrArg Prod.fst hheld).symm.trans hi
  have hsuperclass : w.scopes.superclass? b = some c := (congrArg Prod.snd hheld').symm.trans hc
  refine ⟨a, b, i, c, ?_⟩
  constructor
  case receiver => exact ⟨ha, Scopes.receiver?_eq_some.mp hreceiver⟩
  case superclass => exact ⟨hb, Scopes.superclass?_eq_some.mp hsuperclass⟩
  case opened => exact ⟨hthis, hsuper⟩
  case read => exact hread
  case inherits =>
    have horderly := (Session.Passes.noted h).orderly.1
    exact horderly.super_of_receiver hreceiver (Scopes.parent_of_ancestor? ha hb) hsuperclass

/-- Where an import binds the name, `super` finds no superclass. -/
theorem super_crashes {frames : List Frame} {n : Node}
    (h : (Session.watch steps).notes = later ++ .node .reached site n w :: earlier)
    (hat : At ⟨w, earlier⟩ site ⟨frames, n⟩) {hops : Nat} (huse : use.hops = some hops)
    (himport : ImportBinds frames hops "super") :
    ∃ x, Eval.superMethod site use method w = .error (.crash x) w := by
  obtain ⟨g, body, -, -, -, hg, hbody, -, -⟩ := himport
  obtain ⟨r, hr, hopened, -⟩ := hat.stands.ancestor hg
  obtain ⟨hshows, hheld⟩ := Session.shows h hopened
  have hnone : w.scopes.held r = (none, none) := by
    rw [← hheld]
    cases hc : g.construct with
    | block | function =>
        rw [hc] at hshows
        exact World.Open.held hshows
    | this | super =>
        rw [hc] at hbody
        cases hbody
  exact Eval.superMethod_crash huse hr (congrArg Prod.snd hnone) method

/-- In every session, every `super` that is reached stands in a method of a class with a superclass.
Unless an import binds the name `super` in a scope in between, it finds the superclass that the
class statement read and the receiver of the method; and it yields the nearest definition of the
method for this superclass, bound to this receiver, or fails because there is none. It crashes where
there is such an import. -/
theorem super_finds_superclass
    (h : (Session.watch steps).notes =
      later ++ .node .reached site (.expr (.super use method)) w :: earlier) :
    ∃ text st frames hops outer name sup methods f, .began site.home text st ∈ earlier ∧
      InSubclass st ⟨frames, .expr (.super use method)⟩ hops outer name sup methods f ∧
      ((∃ m < hops, use.hops = some m ∧ ImportBinds frames m "super" ∧
          ∃ x, Eval.superMethod site use method w = .error (.crash x) w) ∨
        use.hops = some (hops + 1) ∧ ∃ a b i c,
          FindsSuper steps earlier site w hops methods f a b i c ∧
          ((∃ v w', Eval.superMethod site use method w = .ok v w' ∧
              w.Binds c method.lexeme i v w') ∨
            Eval.superMethod site use method w =
                .error (.error ⟨method, .undefinedProperty method.lexeme⟩) w ∧
              ∀ k, w.Inherits c k →
                (w.classes.get k).methods.find? method.lexeme = none)) := by
  obtain ⟨hgood, frames, hat⟩ := Session.noted (fun hc : False => hc.elim) h
  obtain ⟨text, st, hb, hwithin⟩ := hat.begun
  obtain ⟨hok, hst⟩ := hgood.told.accepted hb
  obtain ⟨hops, outer, name, sup, methods, f, hin⟩ := UnitText.super_enclosed hok hst hwithin
  refine ⟨text, st, frames, hops, outer, name, sup, methods, f, hb, hin, ?_⟩
  -- Either the hops lead to the superclass, or an import in between has taken the name.
  rcases UnitText.super_hops hok hst hwithin hin with huse | himport
  · obtain ⟨a, b, i, c, hfinds⟩ := findsSuper h hat hin
    refine .inr ⟨huse, a, b, i, c, hfinds, ?_⟩
    rw [Eval.superMethod_run huse hfinds.superclass.1 hfinds.superclass.2 hfinds.receiver.1
      hfinds.receiver.2]
    have horderly := (Session.Passes.noted h).orderly.1
    exact Eval.bind_cases horderly c i method
  · obtain ⟨m, hm, huse, hbinds⟩ := himport
    exact .inl ⟨m, hm, huse, hbinds, super_crashes h hat huse hbinds⟩

/-- Whether a `super` is reached that yields a method. -/
def Event.yieldsMethod : Event → Bool
  | .node .reached site (.expr (.super use method)) w =>
      match Eval.superMethod site use method w with
      | .ok _ _ => true
      | .error _ _ => false
  | _ => false

/-- An inherited method is read through `super`. -/
theorem super_finds_superclass_inherited :
    ∃ later site use method w earlier hops methods f a b i c v w',
      (Session.watch (Session.script
        "class A \x7b m() \x7b return 1; \x7d \x7d class B : A \x7b m() \x7b return super.m(); \x7d \x7d B().m();")).notes =
        later ++ .node .reached site (.expr (.super use method)) w :: earlier ∧
      use.hops = some (hops + 1) ∧
      FindsSuper (Session.script
        "class A \x7b m() \x7b return 1; \x7d \x7d class B : A \x7b m() \x7b return super.m(); \x7d \x7d B().m();")
        earlier site w hops methods f a b i c ∧
      Eval.superMethod site use method w = .ok v w' ∧ w.Binds c method.lexeme i v w' := by
  have hany : (Session.watch (Session.script
      "class A \x7b m() \x7b return 1; \x7d \x7d class B : A \x7b m() \x7b return super.m(); \x7d \x7d B().m();")).notes.any
      Event.yieldsMethod = true := by decide +kernel
  obtain ⟨e, hnoted, hcheck⟩ := List.any_eq_true.mp hany
  obtain ⟨later, earlier, hsplit⟩ := List.append_of_mem hnoted
  unfold Event.yieldsMethod at hcheck
  split at hcheck
  · next site use method w =>
      obtain ⟨_, _, _, hops, _, _, _, methods, f, -, -, hfound⟩ :=
        super_finds_superclass hsplit
      rcases hfound with ⟨-, -, -, -, x, hcrash⟩ | ⟨huse, a, b, i, c, hfinds, hyields⟩
      · rw [hcrash] at hcheck
        cases hcheck
      · rcases hyields with ⟨v, w', hv, hbinds⟩ | ⟨hfail, -⟩
        · exact ⟨later, site, use, method, w, earlier, hops, methods, f, a, b, i, c, v, w', hsplit,
            huse, hfinds, hv, hbinds⟩
        · rw [hfail] at hcheck
          cases hcheck
  · cases hcheck

end
end Treewalk
