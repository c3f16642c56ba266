import Abacus.Machine.Basic

/-!
Traces: the record of a run, one step for each instruction that was tried, with the stack before
and after it. Only the last step of a trace can hold a fault.
-/
namespace Abacus

structure Step where
  index : Nat
  instruction : Instruction
  before : Stack
  after : Outcome
deriving DecidableEq

structure Trace where
  steps : List Step
  final : Outcome
deriving DecidableEq

def Program.traceFrom (values : Variables) (index : Nat) : Program → Stack → Trace
  | [], stack => ⟨[], ⟨stack, none⟩⟩
  | instruction :: rest, stack =>
    let after := instruction.execute values stack
    let step : Step := ⟨index, instruction, stack, after⟩
    match after.fault with
    | some _ => ⟨[step], after⟩
    | none =>
      let later := traceFrom values (index + 1) rest after.stack
      ⟨step :: later.steps, later.final⟩

def Program.trace (values : Variables) (program : Program) : Trace :=
  program.traceFrom values 0 []

namespace Trace

def halted (trace : Trace) : Bool := trace.final.fault.isSome

def result? (trace : Trace) : Option Float :=
  match trace.final with
  | ⟨[value], none⟩ => some value
  | _ => none

end Trace

/-- What descriptions put in the place of an operand that is not there. No run has one missing. -/
def Stack.missing : Float := Binary.toFloat false Binary.quietNaN

def Stack.top (stack : Stack) : Float := stack.head?.getD missing

def Stack.topTwo : Stack → Float × Float
  | right :: left :: _ => (left, right)
  | _ => (missing, missing)

/-- What an instruction did, told by the stacks before and after it. A value that is not a number
has no sign, so it is never put in parentheses where it is negated. -/
def Instruction.describe (before after : Stack) : Instruction → String
  | .push value => "Push value " ++ showNumber value ++ " onto stack"
  | .load name => "Load variable " ++ name ++ " value " ++ showNumber (Stack.top after)
  | .apply op =>
    let (left, right) := Stack.topTwo before
    "Calculate " ++ showNumber left ++ " " ++ op.symbol ++ " " ++ showNumber right ++ " = " ++
      showNumber (Stack.top after)
  | .negate =>
    let operand := Stack.top before
    "Calculate -" ++
      (if Binary.isNegative operand then "(" ++ showNumber operand ++ ")"
        else showNumber operand) ++ " = " ++ showNumber (Stack.top after)

def Step.description (step : Step) : String :=
  match step.after.fault with
  | some fault => "Error: " ++ fault.message
  | none => step.instruction.describe step.before step.after.stack

end Abacus
