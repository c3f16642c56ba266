import Abacus.Proofs.Ending
import Abacus.Proofs.StepLog
import Abacus.Proofs.TreeDepth

/-!
How many values the program of a source keeps on the stack. A left operand leaves one value there
while the right one is worked out, and nothing else does, so the values that a tree needs room for
follow its turns. The nesting limit bounds these, and with them the stack before and after every
step, however long the source is and whatever its variables stand for.
-/
namespace Abacus

def Expr.stackNeed : Expr → Nat
  | .number .. | .identifier .. => 1
  | .binary _ left right _ => max left.stackNeed (right.stackNeed + 1)
  | .unary _ operand _ => operand.stackNeed

theorem Expr.stackNeed_pos (e : Expr) : 0 < e.stackNeed := by
  induction e with
  | number => exact Nat.one_pos
  | identifier => exact Nat.one_pos
  | binary op left right span ihl ihr =>
    rw [stackNeed]
    omega
  | unary sign operand span ih => exact ih

theorem Expr.stackNeed_le_turns (e : Expr) : e.stackNeed ≤ e.turns + 1 := by
  induction e with
  | number => exact Nat.le_refl 1
  | identifier => exact Nat.le_refl 1
  | binary op left right span ihl ihr =>
    rw [stackNeed, turns]
    omega
  | unary sign operand span ih =>
    rw [stackNeed, turns]
    omega

def Step.Within (bound : Nat) (step : Step) : Prop :=
  step.before.length ≤ bound ∧ step.after.stack.length ≤ bound

namespace Program

variable {values : Variables} {bound : Nat} {stack : Stack}

def StaysWithin (values : Variables) (bound : Nat) (program : Program) (stack : Stack) : Prop :=
  ∀ index, ∀ step ∈ (program.traceFrom values index stack).steps, step.Within bound

theorem staysWithin_nil (stack : Stack) : StaysWithin values bound [] stack := by
  intro index step hstep
  cases hstep

theorem staysWithin_cons {instruction : Instruction} {rest : Program} {outcome : Outcome}
    (h : instruction.Effect values stack outcome) (hbefore : stack.length ≤ bound)
    (hafter : outcome.stack.length ≤ bound)
    (hrest : outcome.fault = none → StaysWithin values bound rest outcome.stack) :
    StaysWithin values bound (instruction :: rest) stack := by
  intro index step hstep
  rw [steps_traceFrom_cons, h.eq_execute] at hstep
  rcases List.mem_cons.mp hstep with rfl | hlater
  · exact ⟨hbefore, hafter⟩
  · cases hfault : outcome.fault with
    | some fault =>
      rw [hfault] at hlater
      cases hlater
    | none =>
      rw [hfault] at hlater
      exact hrest hfault (index + 1) step hlater

end Program

open Program

variable {values : Variables} {bound : Nat}

/-- With room for what the tree needs, the program of the tree stays within the bound if the code
after it does on the stack with one value more. -/
theorem Expr.staysWithin_compileThen (e : Expr) {next : Program} {stack : Stack}
    (hroom : stack.length + e.stackNeed ≤ bound)
    (hnext : ∀ value, StaysWithin values bound next (value :: stack)) :
    StaysWithin values bound (e.compileThen next) stack := by
  induction e generalizing next stack with
  | number value span =>
    rw [stackNeed] at hroom
    exact staysWithin_cons (.push value stack) (by omega) hroom fun _ => hnext value
  | identifier name span =>
    rw [stackNeed] at hroom
    have hstack : stack.length ≤ bound := by omega
    cases hfound : values[name]? with
    | some value =>
      exact staysWithin_cons (.load stack hfound) hstack hroom fun _ => hnext value
    | none =>
      refine staysWithin_cons (.undefined stack hfound) hstack hstack ?_
      intro hfault
      cases hfault
  | binary op left right span ihl ihr =>
    have hright := right.stackNeed_pos
    rw [stackNeed] at hroom
    have hone : stack.length + 1 ≤ bound := by omega
    have hstack : stack.length ≤ bound := by omega
    refine ihl (by omega) fun a => ihr ?_ fun b => ?_
    · rw [List.length_cons]
      omega
    · have hoperands : (b :: a :: stack).length ≤ bound := by
        simp only [List.length_cons]
        omega
      cases hvalue : op.calculate a b with
      | ok value =>
        exact staysWithin_cons (.apply stack hvalue) hoperands hone fun _ => hnext value
      | error fault =>
        cases BinaryOp.eq_divisionByZero_of_calculate hvalue
        refine staysWithin_cons (.divisionByZero stack hvalue) hoperands hstack ?_
        intro hfault
        cases hfault
  | unary sign operand span ih =>
    have hoperand := operand.stackNeed_pos
    rw [stackNeed] at hroom
    cases sign with
    | plus => exact ih hroom hnext
    | minus =>
      refine ih hroom fun a => ?_
      have hone : stack.length + 1 ≤ bound := by omega
      exact staysWithin_cons (.negate a stack) hone hone fun _ => hnext (-a)

namespace Calculator

theorem trace_execute (calculator : Calculator) (program : Program) :
    (calculator.execute program).trace = some (program.trace calculator.values) := by
  unfold execute
  dsimp only
  split <;> rfl

theorem trace_answer (calculator : Calculator) {source : String} {tokens : List Token}
    {tree : Expr} (hscan : Token.scan source.toList = .ok tokens)
    (hparse : Expr.parse tokens = .ok tree) :
    (calculator.answer source).trace = some (tree.compile.trace calculator.values) := by
  rw [answer_of_parse_ok hscan hparse]
  exact trace_execute calculator tree.compile

/-- The run of a source that has a tree never holds more than 772 values on the stack: three for
each level of nesting, and four more. -/
theorem stack_length_le (calculator : Calculator) {source : String} {tokens : List Token}
    {tree : Expr} (hscan : Token.scan source.toList = .ok tokens)
    (hparse : Expr.parse tokens = .ok tree) :
    ∃ trace, (calculator.answer source).trace = some trace ∧
      ∀ step ∈ trace.steps, step.before.length ≤ 3 * Expr.maxNesting + 4 ∧
        step.after.stack.length ≤ 3 * Expr.maxNesting + 4 := by
  obtain ⟨lexemes, -, -, depth, hdepth, hphrase⟩ := exists_cut_of_parse hscan hparse
  have hturns : tree.turns ≤ 3 * depth + 3 := hphrase.turns_le
  have hneed : tree.stackNeed ≤ tree.turns + 1 := tree.stackNeed_le_turns
  have hroom : ([] : Stack).length + tree.stackNeed ≤ 3 * Expr.maxNesting + 4 := by
    rw [List.length_nil]
    omega
  have hwithin : StaysWithin calculator.values (3 * Expr.maxNesting + 4) tree.compile [] :=
    tree.staysWithin_compileThen hroom fun value => staysWithin_nil [value]
  exact ⟨tree.compile.trace calculator.values, calculator.trace_answer hscan hparse, hwithin 0⟩

/-- A sum has a value wherever its variable has one. -/
theorem exists_value_flatSumTree {values : Variables} {value : Float}
    (h : values["x"]? = some value) (n : Nat) :
    ∃ total, (flatSumTree n).value values = .ok total := by
  have hx : ∀ span, (Expr.identifier "x" span).value values = .ok value := by
    intro span
    rw [Expr.value, h]
  induction n with
  | zero => exact ⟨value, hx _⟩
  | succ n ih =>
    obtain ⟨total, htotal⟩ := ih
    exact ⟨total + value, Expr.value_binary_eq_ok.mpr ⟨total, value, htotal, hx _, rfl⟩⟩

/-- A thousand additions need no more room than a few, and all of them are carried out. -/
theorem stack_length_le_of_long_sum :
    let calculator : Calculator := ⟨(∅ : Variables).insert "x" 1⟩
    let source := String.ofList (flatSum 1000)
    let tokens := flatSumTokens 1000 ++ [Token.endOfInput (flatSum 1000).length]
    ∃ tree trace, Token.scan source.toList = .ok tokens ∧ Expr.parse tokens = .ok tree ∧
      (calculator.answer source).trace = some trace ∧ trace.halted = false ∧
      ∀ step ∈ trace.steps, step.before.length ≤ 772 ∧ step.after.stack.length ≤ 772 := by
  intro calculator source tokens
  obtain ⟨hscan, hparse⟩ := parse_flatSum 1000
  obtain ⟨trace, htrace, hsteps⟩ := calculator.stack_length_le hscan hparse
  obtain ⟨total, htotal⟩ : ∃ total, (flatSumTree 1000).value calculator.values = .ok total :=
    exists_value_flatSumTree Std.TreeMap.getElem?_insert_self 1000
  have hthrough : trace.halted = false := by
    have heq := htrace.symm.trans (calculator.trace_answer hscan hparse)
    rw [Trace.halted_eq_false, Option.some.inj heq, final_trace, Expr.run_compile_of_ok htotal]
  exact ⟨flatSumTree 1000, trace, hscan, hparse, htrace, hthrough, hsteps⟩

end Calculator
end Abacus
