import Abacus.Proofs.TracedRun

/-!
The steps of a trace as a log of the run. They follow the program from its first instruction, each
one starts on the stack that the one before it left, and only the last can have failed. A step that
succeeded took the operands of its instruction from the top of the stack, put one value in their
place and is described by these values, so a description never stands for a value that is missing.
-/
namespace Abacus

/-- What an instruction takes, leaves and is said to have done when it succeeds: the operands as
they lie on the stack, the last one first, the value that comes in their place, and the words. -/
inductive Instruction.Account (values : Variables) :
    Instruction → List Float → Float → String → Prop
  | push (value : Float) :
      Account values (.push value) [] value ("Push value " ++ showNumber value ++ " onto stack")
  | load {name : String} {value : Float} (h : values[name]? = some value) :
      Account values (.load name) [] value
        ("Load variable " ++ name ++ " value " ++ showNumber value)
  | apply {op : BinaryOp} {a b value : Float} (h : op.calculate a b = .ok value) :
      Account values (.apply op) [b, a] value
        ("Calculate " ++ showNumber a ++ " " ++ op.symbol ++ " " ++ showNumber b ++ " = " ++
          showNumber value)
  | negate (a : Float) :
      Account values .negate [a] (-a)
        ("Calculate -" ++
          (if Binary.isNegative a then "(" ++ showNumber a ++ ")" else showNumber a) ++ " = " ++
          showNumber (-a))

namespace Step

/-- The instruction of the step put one value in the place of its operands, with everything below
them as it was, and the description says so. -/
def Succeeded (values : Variables) (step : Step) : Prop :=
  ∃ operands value below, step.before = operands ++ below ∧
    step.after = ⟨value :: below, none⟩ ∧
    step.instruction.Account values operands value step.description

/-- The instruction of the step met a fault, which the description quotes. A division by zero has
taken its operands, and the other faults leave the stack as it was. -/
def Failed (step : Step) (fault : Fault) : Prop :=
  step.after.fault = some fault ∧ step.description = "Error: " ++ fault.message ∧
    ((((∃ name, fault = .undefinedVariable name) ∨
        ∃ mnemonic needed available, fault = .stackUnderflow mnemonic needed available) ∧
      step.after.stack = step.before) ∨
    (fault = .divisionByZero ∧ ∃ a b, step.before = b :: a :: step.after.stack))

/-- A step that records what its instruction does tells how it succeeded or why it failed. -/
theorem succeeded_or_failed {values : Variables} {step : Step}
    (h : step.after = step.instruction.execute values step.before) :
    step.Succeeded values ∨ ∃ fault, step.Failed fault := by
  obtain ⟨index, instruction, before, after⟩ := step
  have heffect := instruction.effect_execute values before
  rw [← h] at heffect
  cases heffect with
  | push value => exact Or.inl ⟨[], value, before, rfl, rfl, .push value⟩
  | @load name value _ hfound => exact Or.inl ⟨[], value, before, rfl, rfl, .load hfound⟩
  | @undefined name => exact Or.inr ⟨_, rfl, rfl, Or.inl ⟨Or.inl ⟨name, rfl⟩, rfl⟩⟩
  | @apply op a b value below hvalue =>
    exact Or.inl ⟨[b, a], value, below, rfl, rfl, .apply hvalue⟩
  | @divisionByZero op a b below => exact Or.inr ⟨_, rfl, rfl, Or.inr ⟨rfl, a, b, rfl⟩⟩
  | applyUnderflow op => exact Or.inr ⟨_, rfl, rfl, Or.inl ⟨Or.inr ⟨_, _, _, rfl⟩, rfl⟩⟩
  | negate a below => exact Or.inl ⟨[a], -a, below, rfl, rfl, .negate a⟩
  | negateUnderflow => exact Or.inr ⟨_, rfl, rfl, Or.inl ⟨Or.inr ⟨_, _, _, rfl⟩, rfl⟩⟩

theorem succeeded_of_fault_eq_none {values : Variables} {step : Step}
    (h : step.after = step.instruction.execute values step.before)
    (hnone : step.after.fault = none) : step.Succeeded values := by
  rcases succeeded_or_failed h with hsucceeded | ⟨fault, hfault, -⟩
  · exact hsucceeded
  · rw [hnone] at hfault
    cases hfault

theorem failed_of_fault_eq_some {values : Variables} {step : Step} {fault : Fault}
    (h : step.after = step.instruction.execute values step.before)
    (hsome : step.after.fault = some fault) : step.Failed fault := by
  rcases succeeded_or_failed h with ⟨operands, value, below, -, hafter, -⟩ | ⟨met, hfailed⟩
  · rw [hafter] at hsome
    cases hsome
  · have hmet := hfailed.1
    rw [hsome] at hmet
    cases hmet
    exact hfailed

end Step

namespace Program

variable {values : Variables} {index : Nat} {program : Program} {stack : Stack}

theorem steps_traceFrom_cons (instruction : Instruction) (rest : Program) :
    (traceFrom values index (instruction :: rest) stack).steps =
      ⟨index, instruction, stack, instruction.execute values stack⟩ ::
        match (instruction.execute values stack).fault with
        | some _ => []
        | none =>
          (traceFrom values (index + 1) rest (instruction.execute values stack).stack).steps := by
  rw [traceFrom]
  cases (instruction.execute values stack).fault <;> rfl

/-- The steps of a trace are the instructions of the program in order, each with what it does to
the stack before it. -/
theorem getElem?_steps_traceFrom {k : Nat} {step : Step}
    (h : (program.traceFrom values index stack).steps[k]? = some step) :
    step.index = index + k ∧ program[k]? = some step.instruction ∧
      step.after = step.instruction.execute values step.before := by
  induction program generalizing index stack k with
  | nil => cases h
  | cons instruction rest ih =>
    rw [steps_traceFrom_cons] at h
    cases k with
    | zero =>
      cases h
      exact ⟨rfl, rfl, rfl⟩
    | succ k =>
      rw [List.getElem?_cons_succ] at h
      split at h
      · cases h
      · obtain ⟨hindex, hinstruction, hafter⟩ := ih h
        exact ⟨by omega, hinstruction, hafter⟩

theorem before_head_steps_traceFrom {first : Step}
    (h : (program.traceFrom values index stack).steps[0]? = some first) :
    first.before = stack := by
  cases program with
  | nil => cases h
  | cons instruction rest =>
    rw [steps_traceFrom_cons] at h
    cases h
    rfl

/-- Each step of a trace starts on the stack that the one before it left. -/
theorem before_next_steps_traceFrom {k : Nat} {step next : Step}
    (h : (program.traceFrom values index stack).steps[k]? = some step)
    (hnext : (program.traceFrom values index stack).steps[k + 1]? = some next) :
    next.before = step.after.stack := by
  induction program generalizing index stack k with
  | nil => cases h
  | cons instruction rest ih =>
    rw [steps_traceFrom_cons] at h hnext
    rw [List.getElem?_cons_succ] at hnext
    split at hnext
    · cases hnext
    · next hfault =>
      cases k with
      | zero =>
        cases h
        exact before_head_steps_traceFrom hnext
      | succ k =>
        rw [List.getElem?_cons_succ, hfault] at h
        exact ih h hnext

theorem fault_steps_traceFrom_of_none (h : (program.run values stack).fault = none) :
    ∀ step ∈ (program.traceFrom values index stack).steps, step.after.fault = none := by
  induction program generalizing index stack with
  | nil => simp [traceFrom]
  | cons instruction rest ih =>
    rw [run] at h
    rw [steps_traceFrom_cons]
    cases hfault : (instruction.execute values stack).fault with
    | some fault =>
      simp only [hfault, reduceCtorEq] at h
    | none =>
      simp only [hfault] at h
      intro step hstep
      rcases List.mem_cons.mp hstep with rfl | hlater
      · exact hfault
      · exact ih h step hlater

/-- The fault of a run is that of the last step of its trace, and no step before it has one. -/
theorem exists_last_of_fault {fault : Fault} (h : (program.run values stack).fault = some fault) :
    ∃ earlier last, (program.traceFrom values index stack).steps = earlier ++ [last] ∧
      (∀ step ∈ earlier, step.after.fault = none) ∧ last.after.fault = some fault := by
  induction program generalizing index stack with
  | nil => cases h
  | cons instruction rest ih =>
    rw [run] at h
    rw [steps_traceFrom_cons]
    cases hfault : (instruction.execute values stack).fault with
    | some met =>
      simp only [hfault] at h
      exact ⟨[], _, rfl, by simp, hfault.trans h⟩
    | none =>
      simp only [hfault] at h
      obtain ⟨earlier, last, hsteps, hearlier, hlast⟩ := @ih (index + 1) _ h
      refine ⟨_ :: earlier, last, by rw [hsteps]; rfl, ?_, hlast⟩
      intro step hstep
      rcases List.mem_cons.mp hstep with rfl | hstep
      · exact hfault
      · exact hearlier step hstep

end Program

/-- The trace of a run is a log of it. The steps take the instructions in order, from the empty
stack on, each from the stack that the one before it left. A step without a fault succeeded. All
do if the run is not halted, and then there is one for each instruction; otherwise the last one
alone failed, with the fault of the trace. -/
theorem Machine.trace_logs_run (machine : Machine) (program : Program) :
    let trace := (machine.trace program).1
    (∀ (k : Nat) (step : Step), trace.steps[k]? = some step →
      step.index = k ∧ program[k]? = some step.instruction) ∧
    (∀ first, trace.steps[0]? = some first → first.before = []) ∧
    (∀ (k : Nat) (step next : Step), trace.steps[k]? = some step →
      trace.steps[k + 1]? = some next → next.before = step.after.stack) ∧
    (∀ step ∈ trace.steps, step.after.fault = none → step.Succeeded machine.values) ∧
    (trace.halted = false → trace.steps.length = program.length ∧
      ∀ step ∈ trace.steps, step.after.fault = none) ∧
    (trace.halted = true → ∃ earlier last fault, trace.steps = earlier ++ [last] ∧
      (∀ step ∈ earlier, step.after.fault = none) ∧ trace.final.fault = some fault ∧
      last.Failed fault) := by
  intro trace
  have hfinal : trace.final = program.run machine.values [] := program.final_trace machine.values
  have hexecute : ∀ step ∈ trace.steps,
      step.after = step.instruction.execute machine.values step.before := by
    intro step hstep
    obtain ⟨k, hk⟩ := List.mem_iff_getElem?.mp hstep
    exact (Program.getElem?_steps_traceFrom hk).2.2
  refine ⟨?_, ?_, ?_, ?_, ?_, ?_⟩
  · intro k step hk
    obtain ⟨hindex, hinstruction, -⟩ := Program.getElem?_steps_traceFrom hk
    exact ⟨by omega, hinstruction⟩
  · intro first hfirst
    exact Program.before_head_steps_traceFrom hfirst
  · intro k step next hstep hnext
    exact Program.before_next_steps_traceFrom hstep hnext
  · intro step hstep hnone
    exact Step.succeeded_of_fault_eq_none (hexecute step hstep) hnone
  · intro hhalted
    rw [Trace.halted_eq_false, hfinal] at hhalted
    exact ⟨Program.length_steps_traceFrom hhalted,
      Program.fault_steps_traceFrom_of_none hhalted⟩
  · intro hhalted
    obtain ⟨fault, hfault⟩ := Option.isSome_iff_exists.mp hhalted
    have hrun : (program.run machine.values []).fault = some fault := by rwa [← hfinal]
    obtain ⟨earlier, last, hsteps, hearlier, hlast⟩ := Program.exists_last_of_fault hrun
    have hmember : last ∈ trace.steps := by
      rw [show trace.steps = earlier ++ [last] from hsteps]
      simp
    exact ⟨earlier, last, fault, hsteps, hearlier, hfault,
      Step.failed_of_fault_eq_some (hexecute last hmember) hlast⟩

end Abacus
