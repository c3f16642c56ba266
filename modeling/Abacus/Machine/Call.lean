import Abacus.Machine.State

/-!
The calls to a machine as data: a variable is set, or a program is run for its value or for its
trace.
-/
namespace Abacus.Machine

inductive Call where
  | set (name : String) (value : Float)
  | evaluate (program : Program)
  | trace (program : Program)

inductive Reply where
  | nothing
  | value (answer : Except Fault Float)
  | trace (trace : Trace)

def Call.isRun : Call → Bool
  | .set .. => false
  | .evaluate _ | .trace _ => true

def serve (machine : Machine) : Call → Reply × Machine
  | .set name value => (.nothing, machine.set name value)
  | .evaluate program => (machine.evaluate program).map .value id
  | .trace program => (machine.trace program).map .trace id

end Abacus.Machine
