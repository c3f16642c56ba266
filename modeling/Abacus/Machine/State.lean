import Abacus.Machine.Trace

/-!
A machine that is used again and again. A run begins with an empty stack and leaves its stack to
be looked at; the variables change only when they are set.
-/
namespace Abacus

structure Machine where
  values : Variables
  stack : Stack

namespace Machine

def start (values : Variables) : Machine := ⟨values, []⟩

def set (machine : Machine) (name : String) (value : Float) : Machine :=
  { machine with values := machine.values.insert name value }

def evaluate (machine : Machine) (program : Program) : Except Fault Float × Machine :=
  let outcome := program.run machine.values []
  (outcome.value, { machine with stack := outcome.stack })

def trace (machine : Machine) (program : Program) : Trace × Machine :=
  let trace := program.trace machine.values
  (trace, { machine with stack := trace.final.stack })

end Machine
end Abacus
