import Abacus.Proofs.StepLog
import Abacus.Proofs.UndefinedVariable

/-!
What a run asks of the table of variables. It looks up the names that it loads and nothing else, so
that a trace belongs to every table under which its steps come out as they are. Tables that agree
on the names of a program give it the same run. A table with further names gives the same run too,
unless a name was missing; then the two runs go together up to the instruction that loads it.
-/
namespace Abacus

def Variables.Keeps (values values' : Variables) : Prop :=
  ∀ (name : String) (value : Float), values[name]? = some value → values'[name]? = some value

/-- Two tables agree on a name: it has the same value in both, or none in either. -/
def Variables.AgreeOn (values values' : Variables) (name : String) : Prop :=
  values[name]? = values'[name]?

namespace Instruction

variable {values values' : Variables} {instruction : Instruction} {stack : Stack}

/-- An instruction asks the table for the name that it loads, if it loads one. -/
theorem execute_eq_of_agree (h : ∀ name, instruction = .load name → values.AgreeOn values' name) :
    instruction.execute values' stack = instruction.execute values stack := by
  cases instruction with
  | push value => rfl
  | load name =>
    have hname : values[name]? = values'[name]? := h name rfl
    rw [execute, execute, hname]
  | apply op => rcases stack with _ | ⟨right, _ | ⟨left, below⟩⟩ <;> rfl
  | negate => cases stack <;> rfl

/-- With further variables an instruction does the same, unless it lacked one of them. -/
theorem execute_eq_of_keeps (h : values.Keeps values')
    (hlacking : ∀ name, (instruction.execute values stack).fault =
      some (.undefinedVariable name) → values'[name]? = none) :
    instruction.execute values' stack = instruction.execute values stack := by
  refine execute_eq_of_agree ?_
  rintro name rfl
  cases hvalue : values[name]? with
  | some value =>
    have hkept := h name value hvalue
    rw [Variables.AgreeOn, hvalue, hkept]
  | none =>
    have hlacks : (execute values (.load name) stack).fault = some (.undefinedVariable name) := by
      rw [(Effect.undefined stack hvalue).eq_execute]
    rw [Variables.AgreeOn, hvalue, hlacking name hlacks]

end Instruction

namespace Program

variable {values values' : Variables} {index : Nat} {program : Program} {stack : Stack}

/-- A trace whose steps come out the same under another table is the trace under that table. -/
theorem traceFrom_eq_of_steps
    (h : ∀ step ∈ (program.traceFrom values index stack).steps,
      step.instruction.execute values' step.before = step.after) :
    program.traceFrom values' index stack = program.traceFrom values index stack := by
  induction program generalizing index stack with
  | nil => rfl
  | cons instruction rest ih =>
    rw [steps_traceFrom_cons] at h
    have hfirst : instruction.execute values' stack = instruction.execute values stack :=
      h _ List.mem_cons_self
    rw [traceFrom, traceFrom, hfirst]
    cases hfault : (instruction.execute values stack).fault with
    | some fault => rfl
    | none =>
      rw [hfault] at h
      have hlater := ih fun step hstep => h step (List.mem_cons_of_mem _ hstep)
      simp only [hlater]

/-- The steps at the start of a trace that come out the same under another table, none of them with
a fault, are at the start of the trace under that table. -/
theorem steps_traceFrom_of_front {front : List Step}
    (hfront : front <+: (program.traceFrom values index stack).steps)
    (hnone : ∀ step ∈ front, step.after.fault = none)
    (hsame : ∀ step ∈ front, step.instruction.execute values' step.before = step.after) :
    front <+: (program.traceFrom values' index stack).steps := by
  induction front generalizing program index stack with
  | nil => exact List.nil_prefix
  | cons step front ih =>
    cases program with
    | nil => simp [traceFrom] at hfront
    | cons instruction rest =>
      rw [steps_traceFrom_cons, List.cons_prefix_cons] at hfront
      obtain ⟨rfl, hfront⟩ := hfront
      obtain ⟨hfault, hnone⟩ := List.forall_mem_cons.mp hnone
      obtain ⟨hfirst, hsame⟩ := List.forall_mem_cons.mp hsame
      simp only at hfault hfirst
      rw [hfault] at hfront
      rw [steps_traceFrom_cons, hfirst, hfault, List.cons_prefix_cons]
      exact ⟨rfl, ih hfront hnone hsame⟩

/-- The fault of a step is that of the run. -/
theorem fault_run_of_step {step : Step} {fault : Fault}
    (hstep : step ∈ (program.traceFrom values index stack).steps)
    (h : step.after.fault = some fault) : (program.run values stack).fault = some fault := by
  cases hrun : (program.run values stack).fault with
  | none =>
    rw [fault_steps_traceFrom_of_none hrun step hstep] at h
    cases h
  | some met =>
    obtain ⟨earlier, last, hsteps, hearlier, hlast⟩ :
        ∃ earlier last, (program.traceFrom values index stack).steps = earlier ++ [last] ∧
          (∀ step ∈ earlier, step.after.fault = none) ∧ last.after.fault = some met :=
      exists_last_of_fault hrun
    rw [hsteps, List.mem_append, List.mem_singleton] at hstep
    rcases hstep with hstep | rfl
    · rw [hearlier step hstep] at h
      cases h
    · rwa [← hlast]

theorem execute_step {step : Step} (hstep : step ∈ (program.traceFrom values index stack).steps) :
    step.instruction ∈ program ∧ step.after = step.instruction.execute values step.before := by
  obtain ⟨k, hk⟩ := List.mem_iff_getElem?.mp hstep
  obtain ⟨-, hinstruction, hafter⟩ := getElem?_steps_traceFrom hk
  exact ⟨List.mem_of_getElem? hinstruction, hafter⟩

theorem trace_eq_of_agree (h : ∀ name, .load name ∈ program → values.AgreeOn values' name) :
    program.trace values' = program.trace values := by
  refine traceFrom_eq_of_steps fun step hstep => ?_
  obtain ⟨hmember, hafter⟩ := execute_step hstep
  rw [hafter]
  exact Instruction.execute_eq_of_agree fun name hload => h name (hload ▸ hmember)

theorem execute_step_of_keeps {step : Step} (h : values.Keeps values')
    (hstep : step ∈ (program.traceFrom values index stack).steps)
    (hlacking : ∀ name, step.after.fault = some (.undefinedVariable name) →
      values'[name]? = none) :
    step.instruction.execute values' step.before = step.after := by
  obtain ⟨-, hafter⟩ := execute_step hstep
  rw [hafter] at hlacking ⊢
  exact Instruction.execute_eq_of_keeps h hlacking

/-- With further variables a program runs the same, unless it lacked one of them. -/
theorem trace_eq_of_keeps (h : values.Keeps values')
    (hlacking : ∀ name, (program.run values []).fault = some (.undefinedVariable name) →
      values'[name]? = none) :
    program.trace values' = program.trace values := by
  refine traceFrom_eq_of_steps fun step hstep => ?_
  refine execute_step_of_keeps h hstep fun name hlacks => ?_
  exact hlacking name (fault_run_of_step hstep hlacks)

/-- A run that lacks a variable ends with the step that loads it, and with further variables the
steps before that one are the same. -/
theorem exists_lacking_step {name : String}
    (h : (program.run values []).fault = some (.undefinedVariable name)) :
    values[name]? = none ∧ ∃ earlier last, (program.trace values).steps = earlier ++ [last] ∧
      last.after.fault = some (.undefinedVariable name) ∧
      program[earlier.length]? = some (.load name) ∧
      ∀ values', values.Keeps values' → earlier <+: (program.trace values').steps := by
  obtain ⟨earlier, last, hsteps, hearlier, hlast⟩ :
      ∃ earlier last, (program.trace values).steps = earlier ++ [last] ∧
        (∀ step ∈ earlier, step.after.fault = none) ∧
        last.after.fault = some (.undefinedVariable name) :=
    exists_last_of_fault h
  have hlength : (program.trace values).steps[earlier.length]? = some last := by
    rw [hsteps, List.getElem?_concat_length]
  obtain ⟨-, hinstruction, hafter⟩ := getElem?_steps_traceFrom hlength
  have hlacks := hlast
  rw [hafter] at hlacks
  obtain ⟨hload, hnone⟩ := Instruction.undefined_of_execute hlacks
  refine ⟨hnone, earlier, last, hsteps, hlast, hload ▸ hinstruction, fun values' hkeeps => ?_⟩
  have hfront : earlier <+: (program.trace values).steps :=
    hsteps ▸ List.prefix_append earlier [last]
  refine steps_traceFrom_of_front hfront hearlier fun step hstep => ?_
  refine execute_step_of_keeps hkeeps (hfront.subset hstep) fun lacking hlacks => ?_
  rw [hearlier step hstep] at hlacks
  cases hlacks

end Program

/-- A program has the same run on two machines: the value or the fault, the trace with all its
steps, and the stack that is left. Calculators with the same variables give the same answer. -/
structure Machine.SameRun (machine machine' : Machine) (program : Program) : Prop where
  value : (machine'.evaluate program).1 = (machine.evaluate program).1
  trace : (machine'.trace program).1 = (machine.trace program).1
  stack_evaluate : (machine'.evaluate program).2.stack = (machine.evaluate program).2.stack
  stack_trace : (machine'.trace program).2.stack = (machine.trace program).2.stack
  answer : Calculator.execute ⟨machine'.values⟩ program =
    Calculator.execute ⟨machine.values⟩ program

/-- The trace tells all about a run. -/
theorem Machine.sameRun_of_trace {machine machine' : Machine} {program : Program}
    (h : program.trace machine'.values = program.trace machine.values) :
    machine.SameRun machine' program := by
  have hrun : program.run machine'.values [] = program.run machine.values [] := by
    rw [← Program.final_trace, ← Program.final_trace, h]
  constructor
  case value => rw [evaluate, evaluate, hrun]
  case trace => rw [Machine.trace, Machine.trace, h]
  case stack_evaluate => rw [evaluate, evaluate, hrun]
  case stack_trace => rw [Machine.trace, Machine.trace, h]
  case answer =>
    rw [Calculator.execute, Calculator.execute, Program.evaluate, Program.evaluate, hrun, h]

/-- A run depends on the variables that its program loads, and further variables change nothing
but the lack of one. Machines that agree on the names that a program loads give it the same run.
If a machine has the variables of another and more, it gives a program the same run too, unless
the other one lacks a name. Then the last step of the trace there is the one that loads the name;
the steps before it are also those of the larger machine, and if that lacks the name as well, the
run is the same. -/
theorem Machine.run_depends_on_loaded (machine machine' : Machine) (program : Program) :
    ((∀ name, .load name ∈ program → machine.values.AgreeOn machine'.values name) →
      machine.SameRun machine' program) ∧
    (machine.values.Keeps machine'.values →
      let trace := (machine.trace program).1
      let trace' := (machine'.trace program).1
      ((∀ name, (machine.evaluate program).1 ≠ .error (.undefinedVariable name)) →
        machine.SameRun machine' program) ∧
      ∀ name, (machine.evaluate program).1 = .error (.undefinedVariable name) →
        machine.values[name]? = none ∧
        (machine'.values[name]? = none → machine.SameRun machine' program) ∧
        ∃ i last, trace.steps.length = i + 1 ∧ trace.steps[i]? = some last ∧
          last.after.fault = some (.undefinedVariable name) ∧ program[i]? = some (.load name) ∧
          trace'.steps.take i = trace.steps.take i) := by
  refine ⟨?_, ?_⟩
  · intro h
    exact sameRun_of_trace (Program.trace_eq_of_agree h)
  · intro hkeeps trace trace'
    refine ⟨?_, ?_⟩
    · intro hfound
      refine sameRun_of_trace (Program.trace_eq_of_keeps hkeeps fun name hlacks => ?_)
      exact absurd (Outcome.value_of_fault hlacks) (hfound name)
    · intro name hvalue
      have hrun : (program.run machine.values []).fault = some (.undefinedVariable name) :=
        (Outcome.value_eq_error (by simp)).mp hvalue
      obtain ⟨hnone, earlier, last, hsteps, hlast, hload, hfront⟩ :=
        Program.exists_lacking_step hrun
      have htrace : trace.steps = earlier ++ [last] := hsteps
      have hfront' : earlier <+: trace'.steps := hfront machine'.values hkeeps
      refine ⟨hnone, ?_, earlier.length, last, ?_, ?_, hlast, hload, ?_⟩
      · intro hnone'
        refine sameRun_of_trace (Program.trace_eq_of_keeps hkeeps fun lacking hlacks => ?_)
        rw [hrun] at hlacks
        cases hlacks
        exact hnone'
      · rw [htrace, List.length_append, List.length_singleton]
      · rw [htrace, List.getElem?_concat_length]
      · rw [htrace, List.take_left', ← List.prefix_iff_eq_take.mp hfront']
        rfl

end Abacus
