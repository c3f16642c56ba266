import Abacus.Expr.Basic

/-!
What the operators compute on binary64 numbers.
-/
namespace Abacus.BinaryOp

def calculate : BinaryOp → Float → Float → Except Fault Float
  | .add, a, b => .ok (a + b)
  | .subtract, a, b => .ok (a - b)
  | .multiply, a, b => .ok (a * b)
  | .divide, a, b => if b == 0 then .error .divisionByZero else .ok (a / b)
  | .power, a, b => .ok (a.pow b)

end Abacus.BinaryOp
