import Abacus.Machine.State
import Abacus.Proofs.Execution

/-!
A traced run beside a plain one. Both execute the same instructions on the same stacks, so the
last step of the trace ends where the plain run ends. The plain answer and the fields of the trace
are then two readings of one outcome.
-/
namespace Abacus

/-- A fault of an instruction is never that of a stack with too many or too few values at the
end, which only the reading of a finished run can give. -/
theorem Instruction.fault_execute_ne (values : Variables) (instruction : Instruction)
    (stack : Stack) (depth : Nat) :
    (instruction.execute values stack).fault ≠ some (.unbalancedStack depth) := by
  intro h
  have heffect := effect_execute values instruction stack
  generalize instruction.execute values stack = outcome at h heffect
  cases heffect <;> cases h

namespace Program

theorem fault_run_ne (values : Variables) (program : Program) (stack : Stack) (depth : Nat) :
    (program.run values stack).fault ≠ some (.unbalancedStack depth) := by
  induction program generalizing stack with
  | nil => simp [run]
  | cons instruction rest ih =>
    rw [run]
    split
    · exact instruction.fault_execute_ne values stack depth
    · exact ih _

theorem final_traceFrom (values : Variables) (index : Nat) (program : Program) (stack : Stack) :
    (program.traceFrom values index stack).final = program.run values stack := by
  induction program generalizing index stack with
  | nil => rfl
  | cons instruction rest ih =>
    rw [traceFrom, run]
    cases (instruction.execute values stack).fault with
    | some fault => rfl
    | none => exact ih (index + 1) _

@[simp] theorem final_trace (values : Variables) (program : Program) :
    (program.trace values).final = program.run values [] :=
  final_traceFrom values 0 program []

/-- A run that no instruction stops has a step for each of them. -/
theorem length_steps_traceFrom {values : Variables} {index : Nat} {program : Program}
    {stack : Stack} (h : (program.run values stack).fault = none) :
    (program.traceFrom values index stack).steps.length = program.length := by
  induction program generalizing index stack with
  | nil => rfl
  | cons instruction rest ih =>
    rw [run] at h
    rw [traceFrom]
    cases hfault : (instruction.execute values stack).fault with
    | some fault =>
      simp only [hfault, reduceCtorEq] at h
    | none =>
      simp only [hfault] at h
      simp only [List.length_cons, ih h]

end Program

namespace Trace

def stackAfter (start : Stack) (steps : List Step) : Stack :=
  (steps.getLast?.map (·.after.stack)).getD start

theorem stackAfter_cons (start : Stack) (step : Step) (steps : List Step) :
    stackAfter start (step :: steps) = stackAfter step.after.stack steps := by
  unfold stackAfter
  cases steps with
  | nil => rfl
  | cons next later =>
    rw [List.getLast?_cons_cons]
    cases h : (next :: later).getLast? with
    | none => simp at h
    | some last => rfl

end Trace

theorem Program.stackAfter_traceFrom (values : Variables) (index : Nat) (program : Program)
    (stack : Stack) :
    Trace.stackAfter stack (program.traceFrom values index stack).steps =
      (program.run values stack).stack := by
  induction program generalizing index stack with
  | nil => rfl
  | cons instruction rest ih =>
    rw [traceFrom, run]
    cases h : (instruction.execute values stack).fault with
    | some fault => rfl
    | none =>
      simp only [Trace.stackAfter_cons]
      exact ih (index + 1) _

section Readings

variable {outcome : Outcome} {trace : Trace}

theorem Outcome.value_of_fault {fault : Fault} (h : outcome.fault = some fault) :
    outcome.value = .error fault := by
  simp only [value, h]

theorem Outcome.value_eq_ok {value : Float} :
    outcome.value = .ok value ↔ outcome = ⟨[value], none⟩ := by
  rcases outcome with ⟨_ | ⟨top, _ | ⟨next, below⟩⟩, _ | fault⟩ <;> simp [Outcome.value]

theorem Outcome.value_of_length_ne_one (hfault : outcome.fault = none)
    (hlength : outcome.stack.length ≠ 1) :
    outcome.value = .error (.unbalancedStack outcome.stack.length) := by
  rcases outcome with ⟨_ | ⟨top, _ | ⟨next, below⟩⟩, _ | fault⟩
  · rfl
  · cases hfault
  · simp at hlength
  · cases hfault
  · rfl
  · cases hfault

theorem Outcome.exists_of_length_eq_one (hfault : outcome.fault = none)
    (hlength : outcome.stack.length = 1) : ∃ value, outcome = ⟨[value], none⟩ := by
  obtain ⟨value, hstack⟩ := List.length_eq_one_iff.mp hlength
  exact ⟨value, by rw [← hstack, ← hfault]⟩

/-- No instruction gives this fault, so it tells that none failed and how many values are left. -/
theorem Outcome.value_eq_unbalanced {depth : Nat}
    (h : outcome.fault ≠ some (.unbalancedStack depth)) :
    outcome.value = .error (.unbalancedStack depth) ↔
      outcome.fault = none ∧ outcome.stack.length = depth ∧ depth ≠ 1 := by
  constructor
  · intro hvalue
    cases hfault : outcome.fault with
    | some fault =>
      have hmet := value_of_fault hfault
      rw [hvalue] at hmet
      cases hmet
      exact absurd hfault h
    | none =>
      by_cases hlength : outcome.stack.length = 1
      · obtain ⟨value, hone⟩ := exists_of_length_eq_one hfault hlength
        have hok := value_eq_ok.mpr hone
        rw [hvalue] at hok
        cases hok
      · have hdepth := value_of_length_ne_one hfault hlength
        rw [hvalue] at hdepth
        cases hdepth
        exact ⟨rfl, rfl, hlength⟩
  · intro h
    obtain ⟨hfault, rfl, hlength⟩ := h
    exact value_of_length_ne_one hfault hlength

theorem Outcome.value_eq_error {fault : Fault} (h : ∀ depth, fault ≠ .unbalancedStack depth) :
    outcome.value = .error fault ↔ outcome.fault = some fault := by
  rcases outcome with ⟨_ | ⟨top, _ | ⟨next, below⟩⟩, _ | met⟩ <;>
    simp [Outcome.value, (h _).symm]

theorem Trace.result?_eq_some {value : Float} :
    trace.result? = some value ↔ trace.final = ⟨[value], none⟩ := by
  unfold result?
  split
  · next top hfinal => simp [hfinal]
  · next hfinal =>
    constructor
    · intro h
      cases h
    · intro h
      exact absurd h (hfinal value)

theorem Trace.halted_eq_false : trace.halted = false ↔ trace.final.fault = none := by
  simp [halted]

theorem Trace.result?_of_fault {fault : Fault} (h : trace.final.fault = some fault) :
    trace.result? = none := by
  rw [Option.eq_none_iff_forall_ne_some]
  intro value hvalue
  rw [result?_eq_some.mp hvalue] at h
  cases h

theorem Trace.result?_eq_none_iff (h : trace.final.fault = none) :
    trace.result? = none ↔ trace.final.stack.length ≠ 1 := by
  constructor
  · intro hnone hlength
    obtain ⟨value, hone⟩ := Outcome.exists_of_length_eq_one h hlength
    rw [result?_eq_some.mpr hone] at hnone
    cases hnone
  · intro hlength
    rw [Option.eq_none_iff_forall_ne_some]
    intro value hvalue
    rw [result?_eq_some.mp hvalue] at hlength
    exact hlength rfl

/-- The outcome that a trace ends in has a value exactly if the trace shows it as its result. -/
theorem Trace.value_final_eq_ok {value : Float} : trace.final.value = .ok value ↔
    trace.halted = false ∧ trace.final.fault = none ∧ trace.result? = some value := by
  rw [halted_eq_false, result?_eq_some, Outcome.value_eq_ok]
  constructor
  · intro hfinal
    exact ⟨by rw [hfinal], by rw [hfinal], hfinal⟩
  · intro h
    exact h.2.2

theorem Trace.value_final_eq_unbalanced {depth : Nat}
    (h : trace.final.fault ≠ some (.unbalancedStack depth)) :
    trace.final.value = .error (.unbalancedStack depth) ↔
      trace.halted = false ∧ trace.final.fault = none ∧ trace.result? = none ∧
        trace.final.stack.length = depth ∧ depth ≠ 1 := by
  rw [halted_eq_false, Outcome.value_eq_unbalanced h]
  constructor
  · intro hfinal
    obtain ⟨hfault, rfl, hlength⟩ := hfinal
    exact ⟨hfault, hfault, (result?_eq_none_iff hfault).mpr hlength, rfl, hlength⟩
  · intro hfinal
    obtain ⟨hfault, -, -, hlength, hdepth⟩ := hfinal
    exact ⟨hfault, hlength, hdepth⟩

theorem Trace.value_final_eq_error {fault : Fault}
    (h : ∀ depth, trace.final.fault ≠ some (.unbalancedStack depth)) :
    (∀ depth, fault ≠ .unbalancedStack depth) ∧ trace.final.value = .error fault ↔
      trace.halted = true ∧ trace.final.fault = some fault ∧ trace.result? = none := by
  constructor
  · intro hvalue
    obtain ⟨hother, hvalue⟩ := hvalue
    have hfault := (Outcome.value_eq_error hother).mp hvalue
    exact ⟨by rw [halted, hfault]; rfl, hfault, result?_of_fault hfault⟩
  · intro htrace
    obtain ⟨-, hfault, -⟩ := htrace
    have hother : ∀ depth, fault ≠ .unbalancedStack depth := by
      intro depth hunbalanced
      rw [hunbalanced] at hfault
      exact h depth hfault
    exact ⟨hother, Outcome.value_of_fault hfault⟩

end Readings

/-- The plain and the traced run of a program tell the same, on any two machines with the same
values: a value, a stack that does not hold exactly one, or the fault of the last step. -/
theorem Machine.evaluate_iff_trace (values : Variables) (left left' : Stack) (program : Program) :
    let plain := Machine.evaluate ⟨values, left⟩ program
    let traced := Machine.trace ⟨values, left'⟩ program
    (∀ value, plain.1 = .ok value ↔
      traced.1.halted = false ∧ traced.1.final.fault = none ∧ traced.1.result? = some value) ∧
    (∀ depth, plain.1 = .error (.unbalancedStack depth) ↔
      traced.1.halted = false ∧ traced.1.final.fault = none ∧ traced.1.result? = none ∧
        (Trace.stackAfter [] traced.1.steps).length = depth ∧ depth ≠ 1) ∧
    (∀ fault, (∀ depth, fault ≠ .unbalancedStack depth) ∧ plain.1 = .error fault ↔
      traced.1.halted = true ∧ traced.1.final.fault = some fault ∧ traced.1.result? = none) ∧
    (traced.1.halted = false → traced.1.steps.length = program.length) ∧
    plain.2.stack = traced.2.stack := by
  intro plain traced
  have hfinal : traced.1.final = program.run values [] := program.final_trace values
  have hplain : plain.1 = traced.1.final.value := by
    rw [hfinal]
    rfl
  have hstack : Trace.stackAfter [] traced.1.steps = traced.1.final.stack := by
    rw [hfinal]
    exact Program.stackAfter_traceFrom values 0 program []
  have hfault : ∀ depth, traced.1.final.fault ≠ some (.unbalancedStack depth) := by
    intro depth
    rw [hfinal]
    exact program.fault_run_ne values [] depth
  rw [hplain, hstack]
  refine ⟨?_, ?_, ?_, ?_, ?_⟩
  · intro value
    exact Trace.value_final_eq_ok
  · intro depth
    exact Trace.value_final_eq_unbalanced (hfault depth)
  · intro fault
    exact Trace.value_final_eq_error hfault
  · intro h
    rw [Trace.halted_eq_false, hfinal] at h
    exact Program.length_steps_traceFrom h
  · change (program.run values []).stack = traced.1.final.stack
    rw [hfinal]

end Abacus
