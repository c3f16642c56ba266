import Abacus.Expr.Basic

/-!
Instructions of the stack machine and their text.
-/
namespace Abacus

inductive Instruction where
  /-- Puts a value on the stack. -/
  | push (value : Float)
  /-- Puts the value of a variable on the stack. -/
  | load (name : String)
  /-- Replaces the two values on top by the result of an operation on them. -/
  | apply (op : BinaryOp)
  /-- Negates the value on top. -/
  | negate
deriving DecidableEq

abbrev Program := List Instruction

def BinaryOp.mnemonic : BinaryOp → String
  | .add => "ADD"
  | .subtract => "SUB"
  | .multiply => "MUL"
  | .divide => "DIV"
  | .power => "POW"

namespace Instruction

def mnemonic : Instruction → String
  | .push _ => "PUSH"
  | .load _ => "LOAD"
  | .apply op => op.mnemonic
  | .negate => "NEG"

def render (instruction : Instruction) : String :=
  match instruction with
  | .push value => instruction.mnemonic ++ " " ++ showNumber value
  | .load name => instruction.mnemonic ++ " " ++ name
  | .apply _ | .negate => instruction.mnemonic

end Instruction
end Abacus
