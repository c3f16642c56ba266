import Abacus.Calculator
import Abacus.Machine.Call
import Abacus.Program.Generator
import Abacus.Series

/-!
Calls do not see the calls before them. A machine keeps its stack and a generator its code from
one call to the next, also after a run that failed, but a run starts on an empty stack and a tree
on empty code. So what a call gives is what it would give on a new machine with the variables in
force, on a new generator, or on a new calculator with the same variables.
-/
namespace Abacus

namespace Machine

def Call.assignment? : Call → Option (String × Float)
  | .set name value => some (name, value)
  | .evaluate _ | .trace _ => none

/-- The variables in force after a series of calls: those at the start, overwritten by the
assignments among the calls in their order. -/
def valuesAfter (values : Variables) (calls : List Call) : Variables :=
  (calls.filterMap Call.assignment?).foldl
    (fun values assignment => values.insert assignment.1 assignment.2) values

theorem valuesAfter_cons (values : Variables) (call : Call) (later : List Call) :
    valuesAfter values (call :: later) = valuesAfter (valuesAfter values [call]) later := by
  cases call <;> rfl

theorem values_serve (machine : Machine) (call : Call) :
    (machine.serve call).2.values = valuesAfter machine.values [call] := by
  cases call <;> rfl

theorem values_stateAfter (machine : Machine) (calls : List Call) :
    (stateAfter serve machine calls).values = valuesAfter machine.values calls := by
  induction calls generalizing machine with
  | nil => rfl
  | cons call later ih =>
    rw [valuesAfter_cons, ← values_serve]
    exact ih (machine.serve call).2

theorem valuesAfter_append (values : Variables) (earlier later : List Call) :
    valuesAfter values (earlier ++ later) = valuesAfter (valuesAfter values earlier) later := by
  rw [valuesAfter, List.filterMap_append, List.foldl_append]
  rfl

/-- A run replaces the stack it finds, so that the machine might as well be new. -/
theorem serve_eq_of_isRun {call : Call} (h : call.isRun) (machine : Machine) :
    machine.serve call = (start machine.values).serve call := by
  cases call with
  | set name value => cases h
  | evaluate program => rfl
  | trace program => rfl

/-- A call gave the reply of a new machine with the variables in force. A run left the stack that
it leaves on a new machine and the variables as they were; an assignment left the stack as it was
and overwrote one variable. -/
structure ServedAsNew (values : Variables) (earlier : List Call) (call : Call)
    (given : Reply × Machine) : Prop where
  reply : given.1 = ((start (valuesAfter values earlier)).serve call).1
  inForce : given.2.values = valuesAfter values (earlier ++ [call])
  stack_run : call.isRun →
    given.2.stack = ((start (valuesAfter values earlier)).serve call).2.stack
  values_run : call.isRun → given.2.values = (stateAfter serve (start values) earlier).values
  stack_set : call.isRun = false →
    given.2.stack = (stateAfter serve (start values) earlier).stack

theorem servedAsNew_serve (values : Variables) (earlier : List Call) (call : Call) :
    ServedAsNew values earlier call ((stateAfter serve (start values) earlier).serve call) := by
  have hvalues : (stateAfter serve (start values) earlier).values = valuesAfter values earlier :=
    values_stateAfter (start values) earlier
  constructor
  case reply =>
    rw [← hvalues]
    cases call <;> rfl
  case inForce => rw [values_serve, hvalues, valuesAfter_append]
  case stack_run =>
    intro hrun
    rw [serve_eq_of_isRun hrun, hvalues]
  case values_run =>
    intro hrun
    rw [serve_eq_of_isRun hrun]
    cases call with
    | set name value => cases hrun
    | evaluate program => rfl
    | trace program => rfl
  case stack_set =>
    intro hset
    cases call with
    | set name value => rfl
    | evaluate program => cases hset
    | trace program => cases hset

end Machine

theorem Generator.stateAfter_new (trees : List Expr) :
    stateAfter generate new trees = new := by
  refine stateAfter_of_kept generate (· = new) ?_ rfl trees
  intro generator e _
  rw [generate_eq]

namespace Calculator

inductive Call where
  | answer (source : String)
  | execute (program : Program)

def serve (calculator : Calculator) : Call → Answer × Calculator
  | .answer source => (calculator.answer source, calculator)
  | .execute program => (calculator.execute program, calculator)

theorem stateAfter_serve (calculator : Calculator) (calls : List Call) :
    stateAfter serve calculator calls = calculator := by
  refine stateAfter_of_kept serve (· = calculator) ?_ rfl calls
  intro same call h
  cases call <;> exact h

end Calculator

/-- No call sees an earlier one. In every series of calls to one machine, whatever they set and
however their runs ended, each is served as by a new machine; each tree given to one generator is
compiled as by a new generator; and each call to one calculator is answered as by a new calculator
with the same variables. -/
theorem replies_as_new :
    (∀ values earlier call later, ∃ given,
      (replies Machine.serve (.start values) (earlier ++ call :: later))[earlier.length]? =
        some given ∧
      Machine.ServedAsNew values earlier call given) ∧
    (∀ earlier tree later, ∃ given,
      (replies Generator.generate .new (earlier ++ tree :: later))[earlier.length]? =
        some given ∧
      given.1 = (Generator.new.generate tree).1) ∧
    ∀ calculator earlier call later, ∃ given,
      (replies Calculator.serve calculator (earlier ++ call :: later))[earlier.length]? =
        some given ∧
      given.1 = (Calculator.serve ⟨calculator.values⟩ call).1 := by
  refine ⟨?_, ?_, ?_⟩
  · intro values earlier call later
    exact ⟨_, getElem?_replies _ _ _ _ _, Machine.servedAsNew_serve values earlier call⟩
  · intro earlier tree later
    refine ⟨_, getElem?_replies _ _ _ _ _, ?_⟩
    rw [Generator.stateAfter_new]
  · intro calculator earlier call later
    refine ⟨_, getElem?_replies _ _ _ _ _, ?_⟩
    rw [Calculator.stateAfter_serve]

end Abacus
