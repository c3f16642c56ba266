import Abacus.Expr.Arithmetic
import Abacus.Program.Instruction
import Std.Data.TreeMap

/-!
The stack machine. A run starts from the empty stack and stops at the first instruction that
fails; what that instruction leaves on the stack stays there. A run that goes through has a value
if exactly one is left.
-/
namespace Abacus

abbrev Variables := Std.TreeMap String Float

/-- A stack of values, the top first. -/
abbrev Stack := List Float

/-- Where an instruction or a run leads: the stack, and the fault if there was one. -/
structure Outcome where
  stack : Stack
  fault : Option Fault
deriving DecidableEq

/-- The effect of one instruction. A division by zero has already taken its operands; the other
faults leave the stack as it was. -/
def Instruction.execute (values : Variables) : Instruction → Stack → Outcome
  | .push value, stack => ⟨value :: stack, none⟩
  | .load name, stack =>
    match values[name]? with
    | some value => ⟨value :: stack, none⟩
    | none => ⟨stack, some (.undefinedVariable name)⟩
  | .apply op, right :: left :: below =>
    match op.calculate left right with
    | .ok value => ⟨value :: below, none⟩
    | .error fault => ⟨below, some fault⟩
  | .apply op, stack => ⟨stack, some (.stackUnderflow op.mnemonic 2 stack.length)⟩
  | .negate, value :: below => ⟨-value :: below, none⟩
  | .negate, [] => ⟨[], some (.stackUnderflow Instruction.negate.mnemonic 1 0)⟩

namespace Program

def run (values : Variables) : Program → Stack → Outcome
  | [], stack => ⟨stack, none⟩
  | instruction :: rest, stack =>
    let outcome := instruction.execute values stack
    match outcome.fault with
    | some _ => outcome
    | none => run values rest outcome.stack

end Program

def Outcome.value (outcome : Outcome) : Except Fault Float :=
  match outcome.fault, outcome.stack with
  | some fault, _ => .error fault
  | none, [value] => .ok value
  | none, stack => .error (.unbalancedStack stack.length)

def Program.evaluate (values : Variables) (program : Program) : Except Fault Float :=
  (program.run values []).value

end Abacus
