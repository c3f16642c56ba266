import Abacus.Program.Instruction

/-!
How many values a program leaves on the stack, counted without running it. The count rises by one
at each instruction that brings a value and falls by one at each operation on two values; which
values these are plays no part in it.
-/
namespace Abacus

namespace Instruction

def brings : Instruction → Bool
  | .push _ | .load _ => true
  | .apply _ | .negate => false

def merges : Instruction → Bool
  | .apply _ => true
  | .push _ | .load _ | .negate => false

inductive Needs : Instruction → Nat → Prop
  | apply (op : BinaryOp) : Needs (.apply op) 2
  | negate : Needs .negate 1

def gain : Instruction → Int
  | .push _ | .load _ => 1
  | .apply _ => -1
  | .negate => 0

theorem gain_eq (instruction : Instruction) :
    instruction.gain = ((if instruction.brings then 1 else 0 : Nat) : Int) -
      ((if instruction.merges then 1 else 0 : Nat) : Int) := by
  cases instruction <;> rfl

end Instruction

namespace Program

def depth (program : Program) (k : Nat) : Int :=
  (program.take k).countP Instruction.brings - (program.take k).countP Instruction.merges

@[simp] theorem depth_zero (program : Program) : program.depth 0 = 0 := by
  simp [depth]

theorem depth_cons_succ (instruction : Instruction) (rest : Program) (k : Nat) :
    depth (instruction :: rest) (k + 1) = instruction.gain + rest.depth k := by
  simp only [depth, List.take_succ_cons, List.countP_cons, instruction.gain_eq]
  omega

theorem depth_succ {program : Program} {k : Nat} {instruction : Instruction}
    (h : program[k]? = some instruction) :
    program.depth (k + 1) = program.depth k + instruction.gain := by
  simp only [depth, List.take_add_one, h, Option.toList_some, List.countP_append,
    List.countP_singleton, instruction.gain_eq]
  omega

/-- Every instruction finds its operands where the count, read from `count` on, says how many
values there are. -/
def Supplied (count : Int) (program : Program) : Prop :=
  ∀ (k : Nat) (instruction : Instruction) (needed : Nat), program[k]? = some instruction →
    instruction.Needs needed → needed ≤ count + program.depth k

theorem supplied_nil (count : Int) : Supplied count [] := by
  intro k instruction needed h
  simp at h

theorem supplied_cons {count : Int} {instruction : Instruction} {rest : Program} :
    Supplied count (instruction :: rest) ↔
      (∀ needed : Nat, instruction.Needs needed → needed ≤ count) ∧
        Supplied (count + instruction.gain) rest := by
  constructor
  · intro h
    refine ⟨?_, ?_⟩
    · intro needed hneeds
      have hfirst := h 0 instruction needed rfl hneeds
      simpa using hfirst
    · intro k later needed hlater hneeds
      have hnext := h (k + 1) later needed hlater hneeds
      rw [depth_cons_succ] at hnext
      omega
  · intro h k later needed hlater hneeds
    cases k with
    | zero =>
      cases hlater
      simpa using h.1 needed hneeds
    | succ k =>
      have hnext := h.2 k later needed hlater hneeds
      rw [depth_cons_succ]
      omega

end Program
end Abacus
