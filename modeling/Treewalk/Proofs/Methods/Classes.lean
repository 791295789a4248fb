import Mathlib.Logic.Relation
import Treewalk.Proofs.Run.Objects

/-!
# Classes and what they inherit

A class and the classes from which it inherits, in order. A method is looked up in the first of them
that defines it; as superclasses are older than their subclasses, the search is never cut short.
-/
namespace Treewalk.World

/-- A class is the other one, or inherits from it. -/
def Inherits (w : World) : Ref .class → Ref .class → Prop :=
  Relation.ReflTransGen fun c p => (w.classes.get c).superclass = some p

/-- The nearest definition of a method for a class is the one in the class `k`. -/
inductive Nearest (w : World) (name : String) : Ref .class → Ref .class → Closure → Prop
  | own {k : Ref .class} {f : Closure} : (w.classes.get k).methods.find? name = some f →
      Nearest w name k k f
  | inherited {c p k : Ref .class} {f : Closure} : (w.classes.get c).methods.find? name = none →
      (w.classes.get c).superclass = some p → Nearest w name p k f → Nearest w name c k f

/-- Superclasses are older than their subclasses. -/
def Aged (w : World) : Prop :=
  ∀ c p : Ref .class, (w.classes.get c).superclass = some p → p.index < c.index

variable {w w' : World} {name : String} {c k : Ref .class} {f : Closure}

namespace Nearest

theorem inherits (h : w.Nearest name c k f) : w.Inherits c k := by
  induction h with
  | own _ => exact .refl
  | inherited _ hs _ ih => exact .head hs ih

theorem defined (h : w.Nearest name c k f) : (w.classes.get k).methods.find? name = some f := by
  induction h with
  | own hf => exact hf
  | inherited _ _ _ ih => exact ih

/-- The nearest definition is unique, and so is the class it stands in. -/
theorem functional {k' : Ref .class} {f' : Closure} (h : w.Nearest name c k f)
    (h' : w.Nearest name c k' f') : k = k' ∧ f = f' := by
  induction h with
  | own hf =>
      cases h' with
      | own hf' => exact ⟨rfl, Option.some.inj (hf.symm.trans hf')⟩
      | inherited hn _ _ =>
          rw [hf] at hn
          cases hn
  | inherited hn hs _ ih =>
      cases h' with
      | own hf' =>
          rw [hn] at hf'
          cases hf'
      | inherited _ hs' h' =>
          obtain rfl := Option.some.inj (hs.symm.trans hs')
          exact ih h'

end Nearest

theorem nearest_of_methodWithin? {fuel : Nat} (h : w.methodWithin? name fuel c = some f) :
    ∃ k, w.Nearest name c k f := by
  induction fuel generalizing c with
  | zero => cases h
  | succ fuel ih =>
      unfold methodWithin? at h
      cases hm : (w.classes.get c).methods.find? name with
      | some g =>
          simp only [hm] at h
          cases h
          exact ⟨c, .own hm⟩
      | none =>
          cases hs : (w.classes.get c).superclass with
          | none =>
              simp only [hm, hs] at h
              cases h
          | some p =>
              simp only [hm, hs] at h
              obtain ⟨k, hk⟩ := ih h
              exact ⟨k, .inherited hm hs hk⟩

theorem Nearest.methodWithin? (h : w.Nearest name c k f) (hw : w.Aged) {fuel : Nat}
    (hfuel : c.index < fuel) : w.methodWithin? name fuel c = some f := by
  induction h generalizing fuel with
  | own hf =>
      cases fuel with
      | zero => cases hfuel
      | succ fuel =>
          unfold World.methodWithin?
          simp only [hf]
  | inherited hn hs _ ih =>
      cases fuel with
      | zero => cases hfuel
      | succ fuel =>
          unfold World.methodWithin?
          simp only [hn, hs]
          exact ih (Nat.lt_of_lt_of_le (hw _ _ hs) (Nat.le_of_lt_succ hfuel))

/-- A method is found where it is defined nearest. -/
theorem Aged.method?_eq_some (hw : w.Aged) :
    w.method? c name = some f ↔ ∃ k, w.Nearest name c k f :=
  ⟨nearest_of_methodWithin?, fun ⟨_, hk⟩ => hk.methodWithin? hw (Nat.lt_succ_self _)⟩

/-- What some class defines has a nearest definition. -/
theorem exists_nearest (h : w.Inherits c k) (hf : (w.classes.get k).methods.find? name = some f) :
    ∃ k' f', w.Nearest name c k' f' := by
  induction h using Relation.ReflTransGen.head_induction_on with
  | refl => exact ⟨k, f, .own hf⟩
  | @head c p hs _ ih =>
      cases hm : (w.classes.get c).methods.find? name with
      | some g => exact ⟨c, g, .own hm⟩
      | none =>
          obtain ⟨k', f', hk'⟩ := ih
          exact ⟨k', f', .inherited hm hs hk'⟩

/-- A method is not found only if none of the classes defines it. -/
theorem Aged.method?_eq_none (hw : w.Aged) : w.method? c name = none ↔
    ∀ k, w.Inherits c k → (w.classes.get k).methods.find? name = none := by
  constructor
  · intro h k hk
    by_contra hne
    obtain ⟨f, hf⟩ := Option.ne_none_iff_exists'.mp hne
    obtain ⟨k', f', hk'⟩ := exists_nearest hk hf
    rw [hw.method?_eq_some.mpr ⟨k', hk'⟩] at h
    cases h
  · intro h
    by_contra hne
    obtain ⟨f, hf⟩ := Option.ne_none_iff_exists'.mp hne
    obtain ⟨k, hk⟩ := hw.method?_eq_some.mp hf
    exact nomatch hk.defined.symm.trans (h k hk.inherits)

theorem lt_of_superclass (h : (w.classes.get c).superclass = some k) :
    c.index < w.classes.size := by
  rcases Nat.lt_or_ge c.index w.classes.size with hlt | hge
  · exact hlt
  · rw [Arena.get_of_le _ hge] at h
    cases h

theorem lt_of_method (h : (w.classes.get c).methods.find? name = some f) :
    c.index < w.classes.size := by
  rcases Nat.lt_or_ge c.index w.classes.size with hlt | hge
  · exact hlt
  · rw [Arena.get_of_le _ hge] at h
    cases h

/-- What a class inherits does not change. -/
theorem Inherits.mono (h : w.Inherits c k)
    (hw : ∀ c : Ref .class, c.index < w.classes.size → w'.classes.get c = w.classes.get c) :
    w'.Inherits c k := by
  refine Relation.ReflTransGen.mono (fun c p hs => ?_) _ _ h
  rw [hw c (lt_of_superclass hs)]
  exact hs

end Treewalk.World
