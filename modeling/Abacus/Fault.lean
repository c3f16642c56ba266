import Abacus.Token.Basic

/-!
Everything that can go wrong with a request, as causes. The wording of a fault, the stage it
belongs to, the place it points at and the advice given with it are functions of the cause.
-/
namespace Abacus

inductive Defect where
  | empty
  | tooManyOperands
  | notANumber
  | missingOperand
  | needlessOperand
  | unknownOpcode
  /-- A defect found outside this library, in its finder's words. -/
  | other (reason : String)
deriving DecidableEq, Repr

def Defect.reason : Defect → String
  | .empty => "empty instruction"
  | .tooManyOperands => "too many operands"
  | .notANumber => "operand is not a number"
  | .missingOperand => "missing operand"
  | .needlessOperand => "opcode takes no operand"
  | .unknownOpcode => "unknown opcode"
  | .other reason => reason

inductive Fault where
  | invalidCharacter (found : Char) (span : Span)
  | malformedNumber (lexeme : String) (span : Span)
  | unexpectedToken (found : TokenKind) (span : Span)
  | mismatchedToken (expected found : TokenKind) (span : Span)
  | nestingTooDeep (limit : Nat) (span : Span)
  | undefinedVariable (name : String)
  | stackUnderflow (mnemonic : String) (needed available : Nat)
  | divisionByZero
  | unbalancedStack (depth : Nat)
  | unknownOperator (symbol : String) (span : Span)
  | malformedInstruction (text : String) (defect : Defect)
deriving DecidableEq, Repr

inductive Stage where
  | lexical
  | syntactic
  | runtime
  | internal
  | listing
deriving DecidableEq, Repr

def Stage.label : Stage → String
  | .lexical => "Lexical Error"
  | .syntactic => "Parse Error"
  | .runtime => "Runtime Error"
  | .internal => "Internal Error"
  | .listing => "Bytecode Error"

def Stage.name : Stage → String
  | .lexical => "Lexical"
  | .syntactic => "Syntax"
  | .runtime => "Runtime"
  | .internal => "Internal"
  | .listing => "Bytecode"

theorem Stage.name_inj {stage stage' : Stage} (h : stage.name = stage'.name) :
    stage = stage' := by
  cases stage <;> cases stage' <;> first | rfl | simp [name] at h

namespace Fault

def stage : Fault → Stage
  | .invalidCharacter .. | .malformedNumber .. => .lexical
  | .unexpectedToken .. | .mismatchedToken .. | .nestingTooDeep .. => .syntactic
  | .undefinedVariable _ | .stackUnderflow .. | .divisionByZero | .unbalancedStack _ => .runtime
  | .unknownOperator .. => .internal
  | .malformedInstruction .. => .listing

def span? : Fault → Option Span
  | .invalidCharacter _ span | .malformedNumber _ span | .unexpectedToken _ span
  | .mismatchedToken _ _ span | .nestingTooDeep _ span | .unknownOperator _ span => some span
  | .undefinedVariable _ | .stackUnderflow .. | .divisionByZero | .unbalancedStack _
  | .malformedInstruction .. => none

def atPosition (span : Span) : String := " at position " ++ toString span.start

def message : Fault → String
  | .invalidCharacter found span =>
    "Invalid character '" ++ found.toString ++ "'" ++ atPosition span
  | .malformedNumber lexeme span => "Malformed number '" ++ lexeme ++ "'" ++ atPosition span
  | .unexpectedToken found span => "Unexpected token " ++ found.name ++ atPosition span
  | .mismatchedToken expected found span =>
    "Expected " ++ expected.name ++ ", got " ++ found.name ++ atPosition span
  | .nestingTooDeep limit span =>
    "Expression nested deeper than " ++ toString limit ++ " levels" ++ atPosition span
  | .undefinedVariable name => "Undefined variable: " ++ name
  | .stackUnderflow mnemonic needed available =>
    "Stack underflow: " ++ mnemonic ++ " needs " ++ toString needed ++ " operand(s), found " ++
      toString available
  | .divisionByZero => "Division by zero"
  | .unbalancedStack depth =>
    "Invalid stack state after execution: expected 1 value, found " ++ toString depth
  | .unknownOperator symbol span => "Unknown operator '" ++ symbol ++ "'" ++ atPosition span
  | .malformedInstruction text defect =>
    "Malformed instruction '" ++ text ++ "': " ++ defect.reason

def help? : Fault → Option String
  | .invalidCharacter .. =>
    some "Only numbers, identifiers, whitespace and the symbols + - * / ^ ( ) = are allowed."
  | .malformedNumber .. =>
    some "A number may contain at most one '.' and at least one digit. Example: 3.14"
  | .unexpectedToken .eof _ => some "Reached end of input while expecting an expression."
  | .unexpectedToken .assign _ =>
    some "Assignment is not supported; write a single expression."
  | .unexpectedToken .rightParen _ =>
    some "Found ')' without matching '('. Check for unbalanced parentheses."
  | .mismatchedToken .rightParen .. =>
    some "Every opening parenthesis '(' must have a matching closing parenthesis ')'."
  | .nestingTooDeep .. => some "Remove redundant parentheses or repeated signs."
  | .undefinedVariable name =>
    some ("Seed a value for '" ++ name ++ "' before running, e.g. --var " ++ name ++ "=1")
  | _ => none

end Fault

section Bind

variable {ε α β : Type} {x : Except ε α} {f : α → Except ε β}

theorem bind_eq_ok {b : β} : x.bind f = .ok b ↔ ∃ a, x = .ok a ∧ f a = .ok b := by
  cases x <;> simp [Except.bind]

theorem bind_eq_error {e : ε} :
    x.bind f = .error e ↔ x = .error e ∨ ∃ a, x = .ok a ∧ f a = .error e := by
  cases x <;> simp [Except.bind]

end Bind

end Abacus
