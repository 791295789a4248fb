import Treewalk.Value
import Treewalk.Failure
import Treewalk.Number.Remainder

/-!
# Operators

Operators on values. Failures are returned as causes; where they happened is for the evaluator to
say.
-/
namespace Treewalk

/-- Why an operator has no result. -/
inductive OperatorFailure
  | error (cause : RuntimeCause)
  | crash (crash : Crash)
deriving DecidableEq, Repr

/-- Applies an operator to one operand. -/
def UnaryOp.apply : UnaryOp → Value → Except OperatorFailure Value
  | .not, v => .ok (.bool !v.truthy)
  | .negate, .number x => .ok (.number (-x))
  | .negate, _ => .error (.error .operandNotNumber)

namespace BinaryOp

/-- Operators on two numbers. -/
def onNumbers (op : BinaryOp) (x y : Float) : Except OperatorFailure Value :=
  match op with
  | .add => .ok (.number (x + y))
  | .subtract => .ok (.number (x - y))
  | .multiply => .ok (.number (x * y))
  | .divide => if y == 0 then .error (.error .divisionByZero) else .ok (.number (x / y))
  | .remainder =>
      if y == 0 then .error (.error .divisionByZero)
      else
        match (Double.ofFloat x).remainder? (Double.ofFloat y) with
        | some r => .ok (.number r.toFloat)
        | none => .error (.crash .remainderOfInfinity)
  | .equal => .ok (.bool (x == y))
  | .notEqual => .ok (.bool (x != y))
  | .less => .ok (.bool (decide (x < y)))
  | .lessEqual => .ok (.bool (decide (x ≤ y)))
  | .greater => .ok (.bool (decide (y < x)))
  | .greaterEqual => .ok (.bool (decide (y ≤ x)))

/-- Applies an operator to two operands. Any two values can be compared for equality, two strings
can be joined, and all else needs numbers. -/
def apply (op : BinaryOp) (left right : Value) : Except OperatorFailure Value :=
  match op, left, right with
  | .equal, left, right => .ok (.bool (left.same right))
  | .notEqual, left, right => .ok (.bool !left.same right)
  | .add, .text s, .text t => .ok (.text (s ++ t))
  | op, .number x, .number y => op.onNumbers x y
  | .add, _, _ => .error (.error .operandsNotAddable)
  | _, _, _ => .error (.error .operandsNotNumbers)

end BinaryOp

/-- Whether the left operand alone decides. -/
def LogicalOp.decides : LogicalOp → Value → Bool
  | .or, left => left.truthy
  | .and, left => !left.truthy

/-- Equality never fails. -/
theorem BinaryOp.apply_equal (left right : Value) :
    BinaryOp.equal.apply left right = .ok (.bool (left.same right)) := rfl

theorem BinaryOp.apply_notEqual (left right : Value) :
    BinaryOp.notEqual.apply left right = .ok (.bool !left.same right) := rfl

end Treewalk
