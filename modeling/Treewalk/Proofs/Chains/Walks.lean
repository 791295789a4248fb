import Treewalk.Proofs.Methods.Classes

/-!
# Walks along chains

A loop goes from scope to scope outward, or from class to class upward, until it finds what it looks
for or the chain ends. Parents and superclasses are older, so that every chain ends and every such
loop with it; the bounded searches come to what the loops come to.
-/
namespace Treewalk
variable {α β γ : Type}

/-- What a loop comes to that goes from an element to the next one until something is found there,
or until there is no next one. A loop without end comes to nothing. -/
inductive Walks (next : α → Option α) (found : α → Option β) : α → Option β → Prop
  | here {a : α} {b : β} : found a = some b → Walks next found a (some b)
  | onward {a a' : α} {o : Option β} : found a = none → next a = some a' → Walks next found a' o →
      Walks next found a o
  | nowhere {a : α} : found a = none → next a = none → Walks next found a none

namespace Walks
variable {next : α → Option α} {found : α → Option β} {a : α} {o : Option β}

/-- Something is made of what is found. -/
theorem bind {g : β → Option γ} (h : Walks next found a o)
    (hg : ∀ a b, found a = some b → ∃ c, g b = some c) :
    Walks next (fun a => (found a).bind g) a (o.bind g) := by
  induction h with
  | @here a b hf =>
      obtain ⟨c, hc⟩ := hg a b hf
      rw [Option.bind_some, hc]
      apply Walks.here
      rw [hf, Option.bind_some, hc]
  | onward hn hnext _ ih =>
      apply Walks.onward _ hnext ih
      rw [hn, Option.bind_none]
  | nowhere hn hnext =>
      apply Walks.nowhere _ hnext
      rw [hn, Option.bind_none]

/-- A bounded search comes to what the loop comes to if the bound is beyond the first element and
the chain goes down. -/
theorem of_bounded {within : Nat → α → Option β} (index : α → Nat)
    (hwithin : ∀ fuel a, within (fuel + 1) a =
      match found a with
      | some b => some b
      | none =>
          match next a with
          | some a' => within fuel a'
          | none => none)
    (hnext : ∀ a a', next a = some a' → index a' < index a) {fuel : Nat} (hfuel : index a < fuel) :
    Walks next found a (within fuel a) := by
  induction fuel generalizing a with
  | zero => exact (Nat.not_lt_zero _ hfuel).elim
  | succ fuel ih =>
      rw [hwithin]
      cases hf : found a with
      | some b => exact .here hf
      | none =>
          cases hn : next a with
          | none => exact .nowhere hf hn
          | some a' => exact .onward hf hn (ih (by have hlt := hnext a a' hn; omega))

end Walks

/-! ### Outward -/

namespace Scopes
variable {s : Scopes α} {r : Ref .scope} {name : String}

/-- Parents are older than their children. -/
def Outward (s : Scopes α) : Prop := ∀ r p, (s.get r).parent = some p → p.index < r.index

/-- As many steps outward as a scope is deep there is a scope without parent. -/
theorem Outward.ends (h : s.Outward) (r : Ref .scope) :
    ∃ g, s.ancestor? (s.depth r) r = some g ∧ (s.get g).parent = none := by
  have hfuel : ∀ fuel r, r.index ≤ fuel →
      ∃ g, s.ancestor? (s.depthWithin fuel r) r = some g ∧ (s.get g).parent = none := by
    intro fuel
    induction fuel with
    | zero =>
        intro r hr
        refine ⟨r, rfl, Option.eq_none_iff_forall_ne_some.mpr fun p hp => ?_⟩
        have hlt := h r p hp
        omega
    | succ fuel ih =>
        intro r hr
        unfold depthWithin
        cases hp : (s.get r).parent with
        | none => exact ⟨r, rfl, hp⟩
        | some p =>
            have hlt := h r p hp
            obtain ⟨g, hg, hend⟩ := ih p (by omega)
            refine ⟨g, ?_, hend⟩
            simp only [ancestor?, hp]
            exact hg
  exact hfuel r.index r (Nat.le_refl _)

/-- The nearest scope that binds a name is found by the loop over the scopes outward. -/
theorem Outward.holder?_walks (h : s.Outward) (r : Ref .scope) (name : String) :
    Walks (fun r => (s.get r).parent) (fun r => if s.contains r name then some r else none) r
      (s.holder? r name) := by
  refine Walks.of_bounded Ref.index (fun fuel r => ?_) h (Nat.lt_succ_self _)
  rw [holderWithin]
  split
  · rfl
  · cases (s.get r).parent <;> rfl

theorem find?_eq_bind (s : Scopes α) (r : Ref .scope) (name : String) :
    s.find? r name = (if s.contains r name then some r else none).bind fun h => s.find? h name := by
  unfold contains Bindings.contains find?
  cases hv : (s.get r).values.find? name with
  | none => rfl
  | some v => exact hv.symm

/-- Names are loaded by the loop over the scopes outward. -/
theorem Outward.load?_walks (h : s.Outward) (r : Ref .scope) (name : String) :
    Walks (fun r => (s.get r).parent) (fun r => s.find? r name) r (s.load? r name) := by
  have hholder := (h.holder?_walks r name).bind (g := fun h => s.find? h name) ?_
  · simp only [← find?_eq_bind] at hholder
    exact hholder
  · intro a b hb
    split at hb
    · next hc =>
        cases hb
        unfold contains Bindings.contains at hc
        exact Option.isSome_iff_exists.mp hc
    · cases hb

/-- Names are stored by the loop over the scopes outward. -/
theorem Outward.store?_walks (h : s.Outward) (r : Ref .scope) (name : String) (a : α) :
    Walks (fun r => (s.get r).parent)
      (fun r => if s.contains r name then some (s.define r name a) else none) r
      (s.store? r name a) := by
  have hholder := (h.holder?_walks r name).bind (g := fun h => some (s.define h name a))
    fun _ b _ => ⟨s.define b name a, rfl⟩
  have hfound : ∀ r, (if s.contains r name then some r else none).bind
      (fun h => some (s.define h name a)) =
        if s.contains r name then some (s.define r name a) else none := by
    intro r
    split <;> rfl
  simp only [hfound] at hholder
  unfold store?
  rw [Option.map_eq_bind]
  exact hholder

end Scopes

/-! ### Upward -/

namespace World
variable {w : World}

/-- Every class is, or inherits from, a class without superclass. -/
theorem Aged.ends (h : w.Aged) (c : Ref .class) :
    ∃ k, w.Inherits c k ∧ (w.classes.get k).superclass = none := by
  induction hc : c.index using Nat.strong_induction_on generalizing c with
  | _ n ih =>
      cases hs : (w.classes.get c).superclass with
      | none => exact ⟨c, .refl, hs⟩
      | some p =>
          obtain ⟨k, hk, hend⟩ := ih p.index (hc ▸ h c p hs) p rfl
          exact ⟨k, .head hs hk, hend⟩

/-- Methods are found by the loop over the classes upward. -/
theorem Aged.method?_walks (h : w.Aged) (c : Ref .class) (name : String) :
    Walks (fun c => (w.classes.get c).superclass) (fun c => (w.classes.get c).methods.find? name) c
      (w.method? c name) := by
  refine Walks.of_bounded Ref.index (fun fuel c => ?_) h (Nat.lt_succ_self _)
  rw [methodWithin?]
  cases (w.classes.get c).methods.find? name with
  | some f => rfl
  | none => cases (w.classes.get c).superclass <;> rfl

end World
end Treewalk
