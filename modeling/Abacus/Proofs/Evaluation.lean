import Abacus.Machine.State
import Abacus.Program.Compile
import Abacus.Proofs.Execution

/-!
The value of a tree, computed straight from the tree, and the run of its program. The program of
a tree puts that value on top of whatever stack it is started on and goes on with the code after
it, or stops at the fault that the tree itself meets first. So a compiled program never lacks an
operand and never leaves one over.
-/
namespace Abacus

namespace Expr

def value (values : Variables) : Expr → Except Fault Float
  | .number value _ => .ok value
  | .identifier name _ =>
    match values[name]? with
    | some value => .ok value
    | none => .error (.undefinedVariable name)
  | .binary op left right _ =>
    match left.value values with
    | .error fault => .error fault
    | .ok a =>
      match right.value values with
      | .error fault => .error fault
      | .ok b =>
        match op with
        | .add => .ok (a + b)
        | .subtract => .ok (a - b)
        | .multiply => .ok (a * b)
        | .divide => if b == 0 then .error .divisionByZero else .ok (a / b)
        | .power => .ok (a.pow b)
  | .unary .plus operand _ => operand.value values
  | .unary .minus operand _ =>
    match operand.value values with
    | .error fault => .error fault
    | .ok a => .ok (-a)

section Inversion

variable {values : Variables} {op : BinaryOp} {left right operand : Expr} {span : Span}

theorem value_binary_eq_ok {value : Float} :
    (binary op left right span).value values = .ok value ↔
      ∃ a b, left.value values = .ok a ∧ right.value values = .ok b ∧
        op.calculate a b = .ok value := by
  rw [Expr.value]
  cases left.value values with
  | error fault => simp
  | ok a =>
    cases right.value values with
    | error fault => simp
    | ok b => cases op <;> simp [BinaryOp.calculate]

/-- A binary operation passes on the first fault of its operands before it has one of its own. -/
theorem value_binary_eq_error {fault : Fault} :
    (binary op left right span).value values = .error fault ↔
      left.value values = .error fault ∨
      (∃ a, left.value values = .ok a ∧ right.value values = .error fault) ∨
      ∃ a b, left.value values = .ok a ∧ right.value values = .ok b ∧
        op.calculate a b = .error fault := by
  rw [Expr.value]
  cases left.value values with
  | error fault => simp
  | ok a =>
    cases right.value values with
    | error fault => simp
    | ok b => cases op <;> simp [BinaryOp.calculate]

theorem value_minus_eq_ok {value : Float} :
    (unary .minus operand span).value values = .ok value ↔
      ∃ a, operand.value values = .ok a ∧ -a = value := by
  rw [Expr.value]
  cases operand.value values <;> simp

theorem value_minus_eq_error {fault : Fault} :
    (unary .minus operand span).value values = .error fault ↔
      operand.value values = .error fault := by
  rw [Expr.value]
  cases operand.value values <;> simp

end Inversion

open Program

/-- The program of a tree that has a value puts the value on the stack, for any stack below it
and any code after it. -/
theorem run_compileThen_of_ok {values : Variables} {e : Expr} {value : Float}
    (h : e.value values = .ok value) (next : Program) (stack : Stack) :
    (e.compileThen next).run values stack = next.run values (value :: stack) := by
  induction e generalizing value next stack with
  | number literal span =>
    cases h
    exact run_cons_of_ok (.push literal stack) next
  | identifier name span =>
    rw [Expr.value] at h
    split at h
    · next found hfound =>
      cases h
      exact run_cons_of_ok (.load stack hfound) next
    · cases h
  | binary op left right span ihl ihr =>
    obtain ⟨a, b, ha, hb, hop⟩ := value_binary_eq_ok.mp h
    calc (compileThen (.binary op left right span) next).run values stack
        = (right.compileThen (.apply op :: next)).run values (a :: stack) := ihl ha _ _
      _ = Program.run values (.apply op :: next) (b :: a :: stack) := ihr hb _ _
      _ = next.run values (value :: stack) := run_cons_of_ok (.apply stack hop) next
  | unary sign operand span ih =>
    cases sign with
    | plus => exact ih h next stack
    | minus =>
      obtain ⟨a, ha, rfl⟩ := value_minus_eq_ok.mp h
      calc (compileThen (.unary .minus operand span) next).run values stack
          = Program.run values (.negate :: next) (a :: stack) := ih ha _ _
        _ = next.run values (-a :: stack) := run_cons_of_ok (.negate a stack) next

theorem run_compile_of_ok {values : Variables} {e : Expr} {value : Float}
    (h : e.value values = .ok value) : e.compile.run values [] = ⟨[value], none⟩ :=
  run_compileThen_of_ok h [] []

/-- The program of a tree that has a fault stops at it, and the code after it is not reached. -/
theorem fault_run_compileThen {values : Variables} {e : Expr} {fault : Fault}
    (h : e.value values = .error fault) (next : Program) (stack : Stack) :
    ((e.compileThen next).run values stack).fault = some fault := by
  induction e generalizing next stack with
  | number literal span => cases h
  | identifier name span =>
    rw [Expr.value] at h
    split at h
    · cases h
    · next hmissing =>
      cases h
      rw [compileThen, run_cons_of_fault (.undefined stack hmissing) next]
  | binary op left right span ihl ihr =>
    rcases value_binary_eq_error.mp h with hl | ⟨a, ha, hr⟩ | ⟨a, b, ha, hb, hop⟩
    · exact ihl hl _ stack
    · rw [compileThen, run_compileThen_of_ok ha]
      exact ihr hr _ (a :: stack)
    · cases BinaryOp.eq_divisionByZero_of_calculate hop
      rw [compileThen, run_compileThen_of_ok ha, run_compileThen_of_ok hb,
        run_cons_of_fault (.divisionByZero stack hop)]
  | unary sign operand span ih =>
    cases sign with
    | plus => exact ih h next stack
    | minus => exact ih (value_minus_eq_error.mp h) _ stack

/-- What can go wrong in a tree: a name without a value, or a division by zero. -/
theorem fault_of_value {values : Variables} {e : Expr} {fault : Fault}
    (h : e.value values = .error fault) :
    (∃ name, fault = .undefinedVariable name) ∨ fault = .divisionByZero := by
  induction e with
  | number literal span => cases h
  | identifier name span =>
    rw [Expr.value] at h
    split at h
    · cases h
    · cases h
      exact Or.inl ⟨name, rfl⟩
  | binary op left right span ihl ihr =>
    rcases value_binary_eq_error.mp h with hl | ⟨a, -, hr⟩ | ⟨a, b, -, -, hop⟩
    · exact ihl hl
    · exact ihr hr
    · exact Or.inr (BinaryOp.eq_divisionByZero_of_calculate hop)
  | unary sign operand span ih =>
    cases sign with
    | plus => exact ih h
    | minus => exact ih (value_minus_eq_error.mp h)

/-- A machine that runs the program of a tree answers with the value or the fault of the tree.
A value is then alone on the stack, and no fault is one of a program that is out of balance. -/
theorem evaluate_compile (machine : Machine) (e : Expr) :
    (machine.evaluate e.compile).1 = e.value machine.values ∧
    (∀ value, e.value machine.values = .ok value →
      (machine.evaluate e.compile).2.stack = [value]) ∧
    (∀ mnemonic needed available,
      (machine.evaluate e.compile).1 ≠ .error (.stackUnderflow mnemonic needed available)) ∧
    ∀ depth, (machine.evaluate e.compile).1 ≠ .error (.unbalancedStack depth) := by
  have hanswer : (machine.evaluate e.compile).1 = e.value machine.values := by
    cases h : e.value machine.values with
    | ok value =>
      rw [Machine.evaluate, run_compile_of_ok h]
      rfl
    | error fault =>
      have hrun : (e.compile.run machine.values []).fault = some fault :=
        fault_run_compileThen h [] []
      simp only [Machine.evaluate, Outcome.value, hrun]
  refine ⟨hanswer, ?_, ?_, ?_⟩
  · intro value h
    rw [Machine.evaluate, run_compile_of_ok h]
  · intro mnemonic needed available h
    simpa using fault_of_value (hanswer.symm.trans h)
  · intro depth h
    simpa using fault_of_value (hanswer.symm.trans h)

end Expr
end Abacus
