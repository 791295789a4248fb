import Treewalk.Proofs.Reach.Owners

/-!
# Evaluation within reach

Evaluation changes no scope and no instance that it cannot reach, however it ends, and yields only
what it could reach, what is new, and values that are no objects.
-/
namespace Treewalk

namespace World

/-- What evaluation at a site may yield. -/
def Offers (w : World) (site : Site) (t : Thing) : Prop :=
  t.Plain ∨ w.Reaches site t ∨ ¬ w.Has t

section
variable {w w' : World} {site : Site} {t t' : Thing} {L : Ref .loader}

theorem Reaches.root (h : w.Root site t) : w.Reaches site t := ⟨t, h, .refl⟩

theorem Reaches.points (h : w.Reaches site t) (hp : w.Points t t') : w.Reaches site t' := by
  obtain ⟨root, hroot, ht⟩ := h
  exact ⟨root, hroot, ht.tail hp⟩

/-- The scopes around a scope that is reached are reached. -/
theorem Reaches.ancestor {k : Nat} {r r' : Ref .scope} (h : w.Reaches site (.scope r))
    (hk : w.scopes.ancestor? k r = some r') : w.Reaches site (.scope r') := by
  induction k generalizing r with
  | zero =>
      cases hk
      exact h
  | succ k ih =>
      unfold Scopes.ancestor? at hk
      cases hp : (w.scopes.get r).parent with
      | none =>
          rw [hp] at hk
          cases hk
      | some p =>
          rw [hp] at hk
          exact ih (h.points (.enclosing hp)) hk

/-- Everything that can be reached from within a closed region is in the region. -/
theorem Closed.reaches {M : Thing → Prop} (h : w.Closed L M) (hscope : M (.scope site.scope))
    (hhome : w.Homed L M site.home) (ht : w.Reaches site t) : M t := by
  obtain ⟨root, hroot, ht⟩ := ht
  have hstart : M root := by
    cases hroot with
    | scope => exact hscope
    | globals => exact hhome.globals
    | cached hm => exact h.cached _ _ (hhome.loader ▸ hm)
  induction ht with
  | refl => exact hstart
  | tail _ hp ih => exact h.points _ _ ih hp

end
end World

section
variable {steps : List SessionStep} {s : Watched World Event} {site : Site}

variable {w : World}

end

section
variable {steps : List SessionStep} {s : Watched World Event} {site : Site}

theorem Interrupt.Carries.mono {P P' : Value → Prop} {i : Interrupt} (h : i.Carries P)
    (hp : ∀ v, P v → P' v) : i.Carries P' := by
  cases i with
  | signal c =>
      cases c with
      | «return» v => exact hp v h
      | _ => trivial
  | _ => trivial

end

namespace Scopes
variable {α : Type} {s : Scopes α}

/-- Scopes outward are older. -/
theorem index_ancestor? (ho : ∀ r p : Ref .scope, (s.get r).parent = some p → p.index < r.index)
    {k : Nat} {r a : Ref .scope} (ha : s.ancestor? k r = some a) : a.index ≤ r.index := by
  induction k generalizing r with
  | zero =>
      cases ha
      exact Nat.le_refl _
  | succ k ih =>
      unfold ancestor? at ha
      cases hp : (s.get r).parent with
      | none =>
          rw [hp] at ha
          cases ha
      | some p =>
          rw [hp] at ha
          exact Nat.le_trans (ih ha) (Nat.le_of_lt (ho r p hp))

end Scopes

end Treewalk
