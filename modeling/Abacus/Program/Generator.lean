import Abacus.Program.Compile

/-!
A compiler that is used again and again. It walks the tree and puts each instruction at the end
of its code, which is cleared before a tree and handed over after it.
-/
namespace Abacus

structure Generator where
  code : Array Instruction

namespace Generator

def new : Generator := ⟨#[]⟩

def clear (generator : Generator) : Generator := { generator with code := #[] }

def emit (generator : Generator) (instruction : Instruction) : Generator :=
  { generator with code := generator.code.push instruction }

def visit (generator : Generator) : Expr → Generator
  | .number value _ => generator.emit (.push value)
  | .identifier name _ => generator.emit (.load name)
  | .binary op left right _ => ((generator.visit left).visit right).emit (.apply op)
  | .unary .plus operand _ => generator.visit operand
  | .unary .minus operand _ => (generator.visit operand).emit .negate

def generate (generator : Generator) (e : Expr) : Program × Generator :=
  let filled := generator.clear.visit e
  (filled.code.toList, filled.clear)

/-- A tree adds its program to whatever code is there. -/
theorem toList_code_visit (generator : Generator) (e : Expr) :
    (generator.visit e).code.toList = generator.code.toList ++ e.compile := by
  induction e generalizing generator with
  | number value span => simp [visit, emit, Expr.compile, Expr.compileThen]
  | identifier name span => simp [visit, emit, Expr.compile, Expr.compileThen]
  | binary op left right span ihl ihr =>
    rw [visit, emit, Array.toList_push, ihr, ihl, Expr.compile_binary]
    simp only [List.append_assoc]
  | unary sign operand span ih =>
    cases sign with
    | plus => exact ih generator
    | minus =>
      rw [visit, emit, Array.toList_push, ih, Expr.compile_minus, List.append_assoc]

/-- Whatever code is left in a generator, a tree is compiled to its own program, and none is left
after it. -/
theorem generate_eq (generator : Generator) (e : Expr) :
    generator.generate e = (e.compile, new) := by
  have hcode : (generator.clear.visit e).code.toList = e.compile := toList_code_visit _ e
  rw [generate, hcode]
  rfl

end Generator
end Abacus
