import Abacus.Machine.Basic

/-!
What one instruction can do, and how a run goes on after it. The cases of `Effect` are the
instructions with each way they can end, so that a fact about runs needs one look at each.
-/
namespace Abacus

theorem BinaryOp.eq_divisionByZero_of_calculate {op : BinaryOp} {a b : Float} {fault : Fault}
    (h : op.calculate a b = .error fault) : fault = .divisionByZero := by
  cases op with
  | divide =>
    rw [calculate] at h
    split at h
    · cases h
      rfl
    · cases h
  | _ => cases h

namespace Instruction

/-- The effect of an instruction on a stack: what it takes, what it leaves and how it fails. -/
inductive Effect (values : Variables) : Instruction → Stack → Outcome → Prop
  | push (value : Float) (stack : Stack) : Effect values (.push value) stack ⟨value :: stack, none⟩
  | load {name : String} {value : Float} (stack : Stack) (h : values[name]? = some value) :
      Effect values (.load name) stack ⟨value :: stack, none⟩
  | undefined {name : String} (stack : Stack) (h : values[name]? = none) :
      Effect values (.load name) stack ⟨stack, some (.undefinedVariable name)⟩
  | apply {op : BinaryOp} {a b value : Float} (below : Stack) (h : op.calculate a b = .ok value) :
      Effect values (.apply op) (b :: a :: below) ⟨value :: below, none⟩
  | divisionByZero {op : BinaryOp} {a b : Float} (below : Stack)
      (h : op.calculate a b = .error .divisionByZero) :
      Effect values (.apply op) (b :: a :: below) ⟨below, some .divisionByZero⟩
  | applyUnderflow (op : BinaryOp) {stack : Stack} (h : stack.length < 2) :
      Effect values (.apply op) stack ⟨stack, some (.stackUnderflow op.mnemonic 2 stack.length)⟩
  | negate (value : Float) (below : Stack) :
      Effect values .negate (value :: below) ⟨-value :: below, none⟩
  | negateUnderflow : Effect values .negate [] ⟨[], some (.stackUnderflow negate.mnemonic 1 0)⟩

theorem effect_execute (values : Variables) (instruction : Instruction) (stack : Stack) :
    Effect values instruction stack (instruction.execute values stack) := by
  cases instruction with
  | push value => exact .push value stack
  | load name =>
    rw [execute]
    split
    · next value h => exact .load stack h
    · next h => exact .undefined stack h
  | apply op =>
    rcases stack with _ | ⟨b, _ | ⟨a, below⟩⟩
    · exact .applyUnderflow op (by simp)
    · exact .applyUnderflow op (by simp)
    · rw [execute]
      split
      · next value h => exact .apply below h
      · next fault h =>
        cases BinaryOp.eq_divisionByZero_of_calculate h
        exact .divisionByZero below h
  | negate =>
    cases stack with
    | nil => exact .negateUnderflow
    | cons value below => exact .negate value below

theorem Effect.eq_execute {values : Variables} {instruction : Instruction} {stack : Stack}
    {outcome : Outcome} (h : Effect values instruction stack outcome) :
    instruction.execute values stack = outcome := by
  cases h with
  | push => rfl
  | load stack h => rw [execute, h]
  | undefined stack h => rw [execute, h]
  | apply below h => rw [execute, h]
  | divisionByZero below h => rw [execute, h]
  | applyUnderflow op h =>
    rcases stack with _ | ⟨b, _ | ⟨a, below⟩⟩
    · rfl
    · rfl
    · simp only [List.length_cons] at h
      omega
  | negate => rfl
  | negateUnderflow => rfl

end Instruction

namespace Program

variable {values : Variables} {instruction : Instruction} {stack after : Stack}

theorem run_cons_of_ok (h : instruction.Effect values stack ⟨after, none⟩) (rest : Program) :
    run values (instruction :: rest) stack = run values rest after := by
  rw [run, h.eq_execute]

theorem run_cons_of_fault {fault : Fault}
    (h : instruction.Effect values stack ⟨after, some fault⟩) (rest : Program) :
    run values (instruction :: rest) stack = ⟨after, some fault⟩ := by
  rw [run, h.eq_execute]

end Program
end Abacus
