import Abacus.Machine.State
import Abacus.Program.Depth
import Abacus.Proofs.StepLog

/-!
The faults of the stack, read off the shape of a program. Up to the first instruction that fails,
the stack holds as many values as the count of the program says. So where an instruction lacks
operands, how many it finds there and how many values are left at the end do not depend on what the
values are, but for a missing name or a division by zero that stops the run before.
-/
namespace Abacus

namespace Instruction

variable {values : Variables} {instruction : Instruction} {stack after : Stack}

/-- An instruction that succeeds has found its operands. -/
theorem Effect.needed_le (h : instruction.Effect values stack ⟨after, none⟩) :
    ∀ needed, instruction.Needs needed → needed ≤ stack.length := by
  intro needed hneeds
  cases hneeds with
  | apply op =>
    cases h with
    | apply below hvalue =>
      simp only [List.length_cons]
      omega
  | negate =>
    cases h with
    | negate value below =>
      simp only [List.length_cons]
      omega

theorem Effect.length_eq (h : instruction.Effect values stack ⟨after, none⟩) :
    (after.length : Int) = stack.length + instruction.gain := by
  cases h <;> simp only [List.length_cons, gain] <;> omega

/-- An instruction reports a lack of operands exactly if there is one, with the true figures. -/
theorem fault_execute_eq_underflow {mnemonic : String} {needed available : Nat} :
    (instruction.execute values stack).fault =
        some (.stackUnderflow mnemonic needed available) ↔
      instruction.Needs needed ∧ stack.length < needed ∧ mnemonic = instruction.mnemonic ∧
        available = stack.length := by
  constructor
  · intro h
    have heffect := instruction.effect_execute values stack
    generalize instruction.execute values stack = outcome at h heffect
    cases heffect with
    | applyUnderflow op hlength =>
      cases h
      exact ⟨.apply op, hlength, rfl, rfl⟩
    | negateUnderflow =>
      cases h
      exact ⟨.negate, Nat.one_pos, rfl, rfl⟩
    | _ => cases h
  · intro h
    obtain ⟨hneeds, hlength, rfl, rfl⟩ := h
    cases hneeds with
    | apply op => rw [(Effect.applyUnderflow op hlength).eq_execute]; rfl
    | negate =>
      obtain rfl := List.length_eq_zero_iff.mp (Nat.lt_one_iff.mp hlength)
      rfl

/-- A fault other than a lack of operands comes from a value, or from one that is missing. -/
theorem fault_execute_cases {fault : Fault}
    (h : (instruction.execute values stack).fault = some fault) :
    (∃ name, fault = .undefinedVariable name) ∨ fault = .divisionByZero ∨
      ∃ mnemonic needed available, fault = .stackUnderflow mnemonic needed available := by
  have heffect := instruction.effect_execute values stack
  generalize instruction.execute values stack = outcome at h heffect
  cases heffect <;> cases h <;> simp

end Instruction

namespace Program

/-- A run comes to the instruction at an index with a stack, none of those before it having
failed. -/
inductive Reaches (values : Variables) (program : Program) : Nat → Stack → Prop
  | start : Reaches values program 0 []
  | next {k : Nat} {stack after : Stack} {instruction : Instruction}
      (h : Reaches values program k stack) (hinstruction : program[k]? = some instruction)
      (heffect : instruction.Effect values stack ⟨after, none⟩) :
      Reaches values program (k + 1) after

def FailsAt (values : Variables) (program : Program) (k : Nat) (fault : Fault) : Prop :=
  ∃ stack instruction, Reaches values program k stack ∧ program[k]? = some instruction ∧
    (instruction.execute values stack).fault = some fault

/-- The instruction at an index is the first for which the count of values is too low. -/
structure ShortAt (program : Program) (k : Nat) : Prop where
  lacks : ∃ (instruction : Instruction) (needed : Nat), program[k]? = some instruction ∧
    instruction.Needs needed ∧ program.depth k < needed
  earlier : ∀ (j : Nat) (instruction : Instruction) (needed : Nat), j < k →
    program[j]? = some instruction → instruction.Needs needed → needed ≤ program.depth j

variable {values : Variables} {program : Program} {k : Nat} {stack : Stack} {fault : Fault}

theorem Reaches.length_eq (h : Reaches values program k stack) :
    (stack.length : Int) = program.depth k := by
  induction h with
  | start => simp
  | next h hinstruction heffect ih => rw [depth_succ hinstruction, ← ih, heffect.length_eq]

/-- What is left of a run where it comes to an index. -/
theorem Reaches.run_eq (h : Reaches values program k stack) :
    program.run values [] = run values (program.drop k) stack := by
  induction h with
  | start => rfl
  | @next k stack after instruction h hinstruction heffect ih =>
    obtain ⟨hk, hget⟩ := List.getElem?_eq_some_iff.mp hinstruction
    rw [ih, List.drop_eq_getElem_cons hk, hget, run_cons_of_ok heffect]

/-- A run that comes to an index has gone through every instruction before it. -/
theorem Reaches.earlier (h : Reaches values program k stack) {j : Nat} (hj : j < k) :
    ∃ before instruction after, Reaches values program j before ∧
      program[j]? = some instruction ∧ instruction.Effect values before ⟨after, none⟩ := by
  induction h with
  | start => omega
  | @next k stack after instruction h hinstruction heffect ih =>
    by_cases hlast : j = k
    · subst hlast
      exact ⟨stack, instruction, after, h, hinstruction, heffect⟩
    · exact ih (by omega)

theorem Reaches.unique {stack' : Stack} (h : Reaches values program k stack)
    (h' : Reaches values program k stack') : stack = stack' := by
  induction h generalizing stack' with
  | start =>
    cases h'
    rfl
  | @next k stack after instruction h hinstruction heffect ih =>
    cases h' with
    | @next _ before _ found h' hfound heffect' =>
      cases ih h'
      rw [hinstruction] at hfound
      cases hfound
      have hsame := heffect.eq_execute.symm.trans heffect'.eq_execute
      cases hsame
      rfl

/-- No instruction fails before one that a run comes to. -/
theorem Reaches.not_failsAt (h : Reaches values program k stack) {j : Nat} (hj : j < k) :
    ¬ FailsAt values program j fault := by
  rintro ⟨stack', found, hreaches, hfound, hfault⟩
  obtain ⟨before, instruction, after, hbefore, hinstruction, heffect⟩ := h.earlier hj
  cases hbefore.unique hreaches
  rw [hinstruction] at hfound
  cases hfound
  rw [heffect.eq_execute] at hfault
  cases hfault

theorem Reaches.needed_le (h : Reaches values program k stack) :
    ∀ (j : Nat) (instruction : Instruction) (needed : Nat), j < k →
      program[j]? = some instruction → instruction.Needs needed → needed ≤ program.depth j := by
  intro j instruction needed hj hinstruction hneeds
  obtain ⟨before, found, after, hbefore, hfound, heffect⟩ := h.earlier hj
  rw [hinstruction] at hfound
  cases hfound
  have hlength := heffect.needed_le needed hneeds
  have hdepth := hbefore.length_eq
  omega

theorem FailsAt.fault_run (h : FailsAt values program k fault) :
    (program.run values []).fault = some fault := by
  obtain ⟨stack, instruction, hreaches, hinstruction, hfault⟩ := h
  obtain ⟨hk, hget⟩ := List.getElem?_eq_some_iff.mp hinstruction
  rw [hreaches.run_eq, List.drop_eq_getElem_cons hk, hget, run]
  simp only [hfault]

/-- A run comes to every index unless an instruction before it fails. -/
theorem reaches_or_failsAt (values : Variables) (hk : k ≤ program.length) :
    (∃ stack, Reaches values program k stack) ∨
      ∃ j < k, ∃ fault, FailsAt values program j fault := by
  induction k with
  | zero => exact Or.inl ⟨[], .start⟩
  | succ k ih =>
    rcases ih (by omega) with ⟨stack, hreaches⟩ | ⟨j, hj, hfails⟩
    · have hinstruction : program[k]? = some program[k] := List.getElem?_eq_getElem hk
      have heffect := program[k].effect_execute values stack
      cases houtcome : program[k].execute values stack with
      | mk after met =>
        rw [houtcome] at heffect
        cases met with
        | none => exact Or.inl ⟨after, .next hreaches hinstruction heffect⟩
        | some fault =>
          refine Or.inr ⟨k, by omega, fault, stack, program[k], hreaches, hinstruction, ?_⟩
          rw [houtcome]
    · exact Or.inr ⟨j, by omega, hfails⟩

theorem Reaches.run_of_length (h : Reaches values program program.length stack) :
    program.run values [] = ⟨stack, none⟩ := by
  rw [h.run_eq, List.drop_length]
  rfl

/-- The fault of a run is that of the instruction that fails first. -/
theorem fault_run_eq_some :
    (program.run values []).fault = some fault ↔ ∃ k, FailsAt values program k fault := by
  constructor
  · intro h
    rcases reaches_or_failsAt values (Nat.le_refl program.length) with
      ⟨stack, hreaches⟩ | ⟨k, -, met, hfails⟩
    · rw [hreaches.run_of_length] at h
      cases h
    · rw [hfails.fault_run] at h
      cases h
      exact ⟨k, hfails⟩
  · intro h
    obtain ⟨k, hfails⟩ := h
    exact hfails.fault_run

theorem fault_run_eq_none :
    (program.run values []).fault = none ↔ ∀ k fault, ¬ FailsAt values program k fault := by
  rw [Option.eq_none_iff_forall_ne_some]
  constructor
  · intro h k fault hfails
    exact h fault hfails.fault_run
  · intro h fault hfault
    obtain ⟨k, hfails⟩ := fault_run_eq_some.mp hfault
    exact h k fault hfails

/-- A run that goes through leaves as many values as the count says. -/
theorem length_stack_run (h : (program.run values []).fault = none) :
    ((program.run values []).stack.length : Int) = program.depth program.length := by
  rcases reaches_or_failsAt values (Nat.le_refl program.length) with
    ⟨stack, hreaches⟩ | ⟨k, -, fault, hfails⟩
  · rw [hreaches.run_of_length]
    exact hreaches.length_eq
  · exact absurd hfails (fault_run_eq_none.mp h k fault)

/-- The instruction that fails first does so for lack of operands exactly if the count is too low
for it, and then the count is what it reports. -/
theorem failsAt_underflow_iff {mnemonic : String} {needed available : Nat} :
    FailsAt values program k (.stackUnderflow mnemonic needed available) ↔
      ∃ instruction, (∃ fault, FailsAt values program k fault) ∧
        program[k]? = some instruction ∧ instruction.Needs needed ∧ program.depth k < needed ∧
        mnemonic = instruction.mnemonic ∧ (available : Int) = program.depth k := by
  constructor
  · intro h
    obtain ⟨stack, instruction, hreaches, hinstruction, hfault⟩ := id h
    obtain ⟨hneeds, hshort, hmnemonic, havailable⟩ :=
      Instruction.fault_execute_eq_underflow.mp hfault
    have hdepth := hreaches.length_eq
    exact ⟨instruction, ⟨_, h⟩, hinstruction, hneeds, by omega, hmnemonic, by omega⟩
  · intro h
    obtain ⟨instruction, ⟨fault, stack, found, hreaches, hfound, -⟩, hinstruction, hneeds, hshort,
      hmnemonic, havailable⟩ := h
    rw [hinstruction] at hfound
    cases hfound
    have hdepth := hreaches.length_eq
    exact ⟨stack, instruction, hreaches, hinstruction,
      Instruction.fault_execute_eq_underflow.mpr ⟨hneeds, by omega, hmnemonic, by omega⟩⟩

/-- A run lacks operands at an index exactly if the program is short there and neither a missing
name nor a division by zero stops the run before. -/
theorem exists_underflow_iff :
    (∃ mnemonic needed available,
        FailsAt values program k (.stackUnderflow mnemonic needed available)) ↔
      program.ShortAt k ∧ ∀ j < k, (∀ name, ¬ FailsAt values program j (.undefinedVariable name)) ∧
        ¬ FailsAt values program j .divisionByZero := by
  constructor
  · intro h
    obtain ⟨mnemonic, needed, available, hfails⟩ := h
    obtain ⟨instruction, -, hinstruction, hneeds, hshort, -, -⟩ := failsAt_underflow_iff.mp hfails
    obtain ⟨stack, -, hreaches, -, -⟩ := hfails
    exact ⟨⟨⟨instruction, needed, hinstruction, hneeds, hshort⟩, hreaches.needed_le⟩,
      fun j hj => ⟨fun name => hreaches.not_failsAt hj, hreaches.not_failsAt hj⟩⟩
  · intro h
    obtain ⟨⟨⟨instruction, needed, hinstruction, hneeds, hshort⟩, hearlier⟩, hvalues⟩ := h
    obtain ⟨hk, -⟩ := List.getElem?_eq_some_iff.mp hinstruction
    rcases reaches_or_failsAt values (Nat.le_of_lt hk) with
      ⟨stack, hreaches⟩ | ⟨j, hj, fault, hfails⟩
    · have hdepth := hreaches.length_eq
      exact ⟨_, _, _, stack, instruction, hreaches, hinstruction,
        Instruction.fault_execute_eq_underflow.mpr ⟨hneeds, by omega, rfl, rfl⟩⟩
    · obtain ⟨stack, found, -, -, hfault⟩ := id hfails
      rcases Instruction.fault_execute_cases hfault with
        ⟨name, rfl⟩ | rfl | ⟨mnemonic, lacking, available, rfl⟩
      · exact absurd hfails ((hvalues j hj).1 name)
      · exact absurd hfails (hvalues j hj).2
      · -- the count is not too low before `k`
        obtain ⟨short, -, hfound, hlacking, hlow, -, -⟩ := failsAt_underflow_iff.mp hfails
        have hle := hearlier j short lacking hj hfound hlacking
        omega

/-- A step that another one follows has no fault. -/
theorem fault_step_of_next {step next : Step} (h : (program.trace values).steps[k]? = some step)
    (hnext : (program.trace values).steps[k + 1]? = some next) : step.after.fault = none := by
  cases hrun : (program.run values []).fault with
  | none => exact fault_steps_traceFrom_of_none hrun step (List.mem_of_getElem? h)
  | some fault =>
    obtain ⟨earlier, last, hsteps, hearlier, -⟩ :
        ∃ earlier last, (program.trace values).steps = earlier ++ [last] ∧
          (∀ step ∈ earlier, step.after.fault = none) ∧ last.after.fault = some fault :=
      exists_last_of_fault hrun
    rw [hsteps] at h hnext
    obtain ⟨hlength, -⟩ := List.getElem?_eq_some_iff.mp hnext
    rw [List.length_append, List.length_singleton] at hlength
    rw [List.getElem?_append_left (by omega)] at h
    exact hearlier step (List.mem_of_getElem? h)

/-- A traced run shows before each instruction the stack with which the run comes to it. -/
theorem reaches_of_step {step : Step} (h : (program.trace values).steps[k]? = some step) :
    Reaches values program k step.before := by
  induction k generalizing step with
  | zero =>
    rw [before_head_steps_traceFrom h]
    exact .start
  | succ k ih =>
    obtain ⟨hk, -⟩ := List.getElem?_eq_some_iff.mp h
    obtain ⟨previous, hprevious⟩ : ∃ previous, (program.trace values).steps[k]? = some previous :=
      ⟨_, List.getElem?_eq_getElem (by omega)⟩
    obtain ⟨-, hinstruction, hafter⟩ := getElem?_steps_traceFrom hprevious
    have heffect := previous.instruction.effect_execute values previous.before
    rw [← hafter] at heffect
    rw [before_next_steps_traceFrom hprevious h]
    have hnone := fault_step_of_next hprevious h
    cases houtcome : previous.after with
    | mk after met =>
      rw [houtcome] at heffect hnone
      cases hnone
      exact (ih hprevious).next hinstruction heffect

end Program

/-- Faults of the stack follow from the shape of a program. Where a run comes to an instruction,
the stack holds as many values as the count says, which is what a traced run shows before it. The
run lacks operands exactly if the count is too low for the first instruction that fails, and it is
left out of balance exactly if none fails and the count does not end at one; the figures reported
are those of the count. So a program short of operands somewhere is short of them at the same place
whatever the values are, unless a missing name or a division by zero stops it before. -/
theorem Machine.evaluate_follows_depth (machine : Machine) (program : Program) :
    (∀ k ≤ program.length, (∀ j < k, ∀ fault, ¬ program.FailsAt machine.values j fault) →
      ∃ stack, program.Reaches machine.values k stack ∧ (stack.length : Int) = program.depth k) ∧
    (∀ (k : Nat) (step : Step), (machine.trace program).1.steps[k]? = some step →
      program.Reaches machine.values k step.before ∧
        (step.before.length : Int) = program.depth k) ∧
    (∀ mnemonic needed available,
      (machine.evaluate program).1 = .error (.stackUnderflow mnemonic needed available) ↔
        ∃ k instruction, (∃ fault, program.FailsAt machine.values k fault) ∧
          program[k]? = some instruction ∧ instruction.Needs needed ∧ program.depth k < needed ∧
          mnemonic = instruction.mnemonic ∧ (available : Int) = program.depth k) ∧
    (∀ left : Nat, (machine.evaluate program).1 = .error (.unbalancedStack left) ↔
      (∀ k fault, ¬ program.FailsAt machine.values k fault) ∧
        (left : Int) = program.depth program.length ∧ left ≠ 1) ∧
    ∀ k, (∃ mnemonic needed available,
        program.FailsAt machine.values k (.stackUnderflow mnemonic needed available)) ↔
      program.ShortAt k ∧ ∀ j < k,
        (∀ name, ¬ program.FailsAt machine.values j (.undefinedVariable name)) ∧
          ¬ program.FailsAt machine.values j .divisionByZero := by
  refine ⟨?_, ?_, ?_, ?_, ?_⟩
  · intro k hk hnone
    rcases Program.reaches_or_failsAt machine.values hk with
      ⟨stack, hreaches⟩ | ⟨j, hj, fault, hfails⟩
    · exact ⟨stack, hreaches, hreaches.length_eq⟩
    · exact absurd hfails (hnone j hj fault)
  · intro k step hstep
    have hreaches := Program.reaches_of_step hstep
    exact ⟨hreaches, hreaches.length_eq⟩
  · intro mnemonic needed available
    calc (machine.evaluate program).1 = .error (.stackUnderflow mnemonic needed available)
        ↔ (program.run machine.values []).fault =
            some (.stackUnderflow mnemonic needed available) := Outcome.value_eq_error (by simp)
      _ ↔ ∃ k, program.FailsAt machine.values k (.stackUnderflow mnemonic needed available) :=
          Program.fault_run_eq_some
      _ ↔ _ := exists_congr fun k => Program.failsAt_underflow_iff
  · intro left
    have hfault := program.fault_run_ne machine.values [] left
    refine (Outcome.value_eq_unbalanced hfault).trans ?_
    rw [← Program.fault_run_eq_none]
    constructor
    · intro h
      obtain ⟨hnone, hlength, hleft⟩ := h
      rw [← Program.length_stack_run hnone, hlength]
      exact ⟨hnone, rfl, hleft⟩
    · intro h
      obtain ⟨hnone, hlength, hleft⟩ := h
      rw [← Program.length_stack_run hnone] at hlength
      exact ⟨hnone, by omega, hleft⟩
  · intro k
    exact Program.exists_underflow_iff

/-- One value is too few to add, whatever it is. -/
example (machine : Machine) (value : Float) :
    (machine.evaluate [.push value, .apply .add, .negate]).1 =
      .error (.stackUnderflow "ADD" 2 1) := by
  rfl

end Abacus
