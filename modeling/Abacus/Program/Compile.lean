import Abacus.Program.Instruction

/-!
From trees to programs: the operands of an operation in order, then the operation. A plus sign
leaves no instruction.
-/
namespace Abacus.Expr

def compileThen : Expr → Program → Program
  | .number value _, next => .push value :: next
  | .identifier name _, next => .load name :: next
  | .binary op left right _, next =>
    left.compileThen (right.compileThen (.apply op :: next))
  | .unary .plus operand _, next => operand.compileThen next
  | .unary .minus operand _, next => operand.compileThen (.negate :: next)

def compile (e : Expr) : Program := e.compileThen []

theorem compileThen_eq (e : Expr) (next : Program) : e.compileThen next = e.compile ++ next := by
  induction e generalizing next with
  | number | identifier => rfl
  | binary op left right _ hl hr =>
    rw [compile, compileThen, compileThen, hl, hr, hl (right.compileThen _), hr [_]]
    simp
  | unary sign operand _ ih =>
    cases sign with
    | plus => rw [compile, compileThen, compileThen, ih, ih []]; simp
    | minus => rw [compile, compileThen, compileThen, ih, ih [_]]; simp

theorem compile_binary (op : BinaryOp) (left right : Expr) (span : Span) :
    (binary op left right span).compile = left.compile ++ right.compile ++ [.apply op] := by
  rw [compile, compileThen, compileThen_eq, compileThen_eq, List.append_assoc]

theorem compile_plus (operand : Expr) (span : Span) :
    (unary .plus operand span).compile = operand.compile := rfl

theorem compile_minus (operand : Expr) (span : Span) :
    (unary .minus operand span).compile = operand.compile ++ [.negate] := by
  rw [compile, compileThen, compileThen_eq]

end Abacus.Expr
