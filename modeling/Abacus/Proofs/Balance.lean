import Abacus.Program.Compile
import Abacus.Program.Depth

/-!
Which programs come from trees, and which trees share a program. A program whose instructions all
find their operands can be run on trees in place of values, each instruction putting the node it
stands for on top of its operands. If one tree is left at the end, the program is the program of
that tree. A compiled program gives its tree back in this way, without its plus signs and spans.
-/
namespace Abacus

namespace Expr

def withoutPlus : Expr → Expr
  | .number value span => .number value span
  | .identifier name span => .identifier name span
  | .binary op left right span => .binary op left.withoutPlus right.withoutPlus span
  | .unary .plus operand _ => operand.withoutPlus
  | .unary .minus operand span => .unary .minus operand.withoutPlus span

def nowhere : Span := ⟨0, 0⟩

def withoutSpans : Expr → Expr
  | .number value _ => .number value nowhere
  | .identifier name _ => .identifier name nowhere
  | .binary op left right _ => .binary op left.withoutSpans right.withoutSpans nowhere
  | .unary sign operand _ => .unary sign operand.withoutSpans nowhere

theorem compile_withoutPlus (e : Expr) : e.withoutPlus.compile = e.compile := by
  induction e with
  | number value span => rfl
  | identifier name span => rfl
  | binary op left right span ihl ihr =>
    rw [withoutPlus, compile_binary, compile_binary, ihl, ihr]
  | unary sign operand span ih =>
    cases sign with
    | plus => exact ih
    | minus => rw [withoutPlus, compile_minus, compile_minus, ih]

theorem compile_withoutSpans (e : Expr) : e.withoutSpans.compile = e.compile := by
  induction e with
  | number value span => rfl
  | identifier name span => rfl
  | binary op left right span ihl ihr =>
    rw [withoutSpans, compile_binary, compile_binary, ihl, ihr]
  | unary sign operand span ih =>
    cases sign with
    | plus => exact ih
    | minus => rw [withoutSpans, compile_minus, compile_minus, ih]

end Expr

/-- Puts the node of an instruction on top of the trees that are its operands, the last operand
first. There is none if an operand is missing. -/
def Instruction.build : Instruction → List Expr → Option (List Expr)
  | .push value, trees => some (.number value Expr.nowhere :: trees)
  | .load name, trees => some (.identifier name Expr.nowhere :: trees)
  | .apply op, right :: left :: below => some (.binary op left right Expr.nowhere :: below)
  | .negate, operand :: below => some (.unary .minus operand Expr.nowhere :: below)
  | .apply _, _ | .negate, _ => none

def Program.build : Program → List Expr → Option (List Expr)
  | [], trees => some trees
  | instruction :: rest, trees => (instruction.build trees).bind (build rest)

def Expr.compileAll (trees : List Expr) : Program := trees.reverse.flatMap compile

theorem Expr.compileAll_cons (e : Expr) (trees : List Expr) :
    compileAll (e :: trees) = compileAll trees ++ e.compile := by
  simp [compileAll]

namespace Instruction

variable {instruction : Instruction} {trees after : List Expr}

/-- An instruction builds a node exactly if the operands are there. -/
theorem exists_build_iff :
    (∃ after, instruction.build trees = some after) ↔
      ∀ needed : Nat, instruction.Needs needed → (needed : Int) ≤ trees.length := by
  constructor
  · intro h needed hneeds
    obtain ⟨after, hbuild⟩ := h
    cases hneeds with
    | apply op =>
      rcases trees with _ | ⟨right, _ | ⟨left, below⟩⟩
      · cases hbuild
      · cases hbuild
      · simp only [List.length_cons]
        omega
    | negate =>
      cases trees with
      | nil => cases hbuild
      | cons operand below =>
        simp only [List.length_cons]
        omega
  · intro h
    cases instruction with
    | push value => exact ⟨_, rfl⟩
    | load name => exact ⟨_, rfl⟩
    | apply op =>
      have hlength := h 2 (.apply op)
      rcases trees with _ | ⟨right, _ | ⟨left, below⟩⟩
      · simp at hlength
      · simp at hlength
      · exact ⟨_, rfl⟩
    | negate =>
      have hlength := h 1 .negate
      cases trees with
      | nil => simp at hlength
      | cons operand below => exact ⟨_, rfl⟩

theorem length_build (h : instruction.build trees = some after) :
    (after.length : Int) = trees.length + instruction.gain := by
  unfold build at h
  split at h <;> cases h <;> simp only [List.length_cons, gain] <;> omega

/-- The node that an instruction builds is compiled to the programs of its operands and the
instruction after them. -/
theorem compileAll_build (h : instruction.build trees = some after) :
    Expr.compileAll after = Expr.compileAll trees ++ [instruction] := by
  unfold build at h
  split at h <;> cases h
  · rw [Expr.compileAll_cons]
    rfl
  · rw [Expr.compileAll_cons]
    rfl
  · simp only [Expr.compileAll_cons, Expr.compile_binary, List.append_assoc]
  · simp only [Expr.compileAll_cons, Expr.compile_minus, List.append_assoc]

end Instruction

namespace Program

variable {program : Program} {trees after : List Expr}

theorem build_cons_eq_some {instruction : Instruction} :
    build (instruction :: program) trees = some after ↔
      ∃ middle, instruction.build trees = some middle ∧ program.build middle = some after :=
  Option.bind_eq_some_iff

theorem compileAll_build (h : program.build trees = some after) :
    Expr.compileAll after = Expr.compileAll trees ++ program := by
  induction program generalizing trees with
  | nil =>
    cases h
    rw [List.append_nil]
  | cons instruction rest ih =>
    obtain ⟨middle, hfirst, hrest⟩ := build_cons_eq_some.mp h
    rw [ih hrest, Instruction.compileAll_build hfirst, List.append_assoc, List.singleton_append]

/-- A program that finds its operands builds as many trees as the count says. -/
theorem exists_build (h : Supplied trees.length program) :
    ∃ after, program.build trees = some after ∧
      (after.length : Int) = trees.length + program.depth program.length := by
  induction program generalizing trees with
  | nil => exact ⟨trees, rfl, by simp⟩
  | cons instruction rest ih =>
    obtain ⟨hneeds, hrest⟩ := supplied_cons.mp h
    obtain ⟨middle, hfirst⟩ := Instruction.exists_build_iff.mpr hneeds
    rw [← Instruction.length_build hfirst] at hrest
    obtain ⟨after, hbuild, hlength⟩ := ih hrest
    refine ⟨after, build_cons_eq_some.mpr ⟨middle, hfirst, hbuild⟩, ?_⟩
    rw [hlength, Instruction.length_build hfirst, List.length_cons, depth_cons_succ, Int.add_assoc]

/-- A program that builds trees finds its operands. -/
theorem supplied_of_build (h : program.build trees = some after) :
    Supplied trees.length program := by
  induction program generalizing trees with
  | nil => exact supplied_nil _
  | cons instruction rest ih =>
    obtain ⟨middle, hfirst, hrest⟩ := build_cons_eq_some.mp h
    have hsupplied := ih hrest
    rw [Instruction.length_build hfirst] at hsupplied
    exact supplied_cons.mpr ⟨Instruction.exists_build_iff.mp ⟨middle, hfirst⟩, hsupplied⟩

/-- The program of a tree builds that tree, less its plus signs and spans, on top of the trees that
are there. -/
theorem build_compileThen (e : Expr) (next : Program) (trees : List Expr) :
    (e.compileThen next).build trees = next.build (e.withoutPlus.withoutSpans :: trees) := by
  induction e generalizing next trees with
  | number value span => rfl
  | identifier name span => rfl
  | binary op left right span ihl ihr =>
    rw [Expr.compileThen, ihl, ihr]
    rfl
  | unary sign operand span ih =>
    cases sign with
    | plus => exact ih next trees
    | minus =>
      rw [Expr.compileThen, ih]
      rfl

theorem build_compile (e : Expr) :
    e.compile.build [] = some [e.withoutPlus.withoutSpans] :=
  build_compileThen e [] []

/-- A program in balance: every instruction finds its operands, and one value is left. -/
structure Balanced (program : Program) : Prop where
  supplied : Supplied 0 program
  final : program.depth program.length = 1

theorem balanced_compile (e : Expr) : e.compile.Balanced := by
  have hsupplied : Supplied ([] : List Expr).length e.compile :=
    supplied_of_build (build_compile e)
  refine ⟨hsupplied, ?_⟩
  obtain ⟨after, hbuild, hlength⟩ := exists_build hsupplied
  rw [build_compile e] at hbuild
  cases hbuild
  simpa using hlength.symm

theorem Balanced.exists_compile (h : program.Balanced) : ∃ e : Expr, e.compile = program := by
  have hsupplied : Supplied ([] : List Expr).length program := h.supplied
  obtain ⟨trees, hbuild, hlength⟩ := exists_build hsupplied
  have hone : trees.length = 1 := by
    rw [h.final, List.length_nil] at hlength
    omega
  obtain ⟨e, rfl⟩ := List.length_eq_one_iff.mp hone
  -- nothing was there before, so the one tree left is compiled to the whole program
  have hcode := compileAll_build hbuild
  exact ⟨e, by simpa [Expr.compileAll] using hcode⟩

end Program

/-- The compiled programs are those in balance, and two trees are compiled to the same program
exactly if they are the same but for their plus signs and spans. -/
theorem Expr.compiled_iff_balanced :
    (∀ program : Program, (∃ e : Expr, e.compile = program) ↔ program.Balanced) ∧
    ∀ e e' : Expr, e.compile = e'.compile ↔
      e.withoutPlus.withoutSpans = e'.withoutPlus.withoutSpans := by
  refine ⟨?_, ?_⟩
  · intro program
    constructor
    · rintro ⟨e, rfl⟩
      exact Program.balanced_compile e
    · intro h
      exact h.exists_compile
  · intro e e'
    constructor
    · intro h
      have hbuild := Program.build_compile e
      rw [h, Program.build_compile e'] at hbuild
      simpa using hbuild.symm
    · intro h
      rw [← compile_withoutPlus, ← compile_withoutSpans, h, compile_withoutSpans,
        compile_withoutPlus]

end Abacus
