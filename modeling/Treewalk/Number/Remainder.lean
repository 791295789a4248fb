import Treewalk.Number.Double

/-!
# Exact remainder of doubles

The remainder of truncating division keeps the sign of the left operand and is computed without
rounding: both operands are brought to one power of two, where it is a remainder of naturals.
-/
namespace Treewalk.Double

/-- The remainder of `m₁ * 2 ^ e₁` by `m₂ * 2 ^ e₂` as a multiple of the smaller power of two. -/
def remainderParts (m₁ : Nat) (e₁ : Int) (m₂ : Nat) (e₂ : Int) : Nat × Int :=
  let e := min e₁ e₂
  ((m₁ <<< (e₁ - e).toNat) % (m₂ <<< (e₂ - e).toNat), e)

theorem remainderParts_same (m₁ m₂ : Nat) (e : Int) :
    remainderParts m₁ e m₂ e = (m₁ % m₂, e) := by
  simp [remainderParts]

/-- The remainder, where there is one: an infinite left operand has none. -/
def remainder? : Double → Double → Option Double
  | .nan, _ => some .nan
  | _, .nan => some .nan
  | .infinite _, _ => none
  | .finite negative m e, .infinite _ => some (.finite negative m e)
  | .finite negative m₁ e₁, .finite _ m₂ e₂ =>
      let r := remainderParts m₁ e₁ m₂ e₂
      some (.finite negative r.1 r.2)

/-- Only an infinite left operand with a right operand that is a number has no remainder. -/
theorem remainder?_eq_none_iff (x y : Double) :
    x.remainder? y = none ↔ (∃ s, x = .infinite s) ∧ y ≠ .nan := by
  cases x <;> cases y <;> simp [remainder?]

end Treewalk.Double
