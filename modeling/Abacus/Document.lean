import Abacus.Calculator
import Abacus.Json

/-!
The answer to a request as a document.
-/
namespace Abacus

def Span.document (span : Span) : Json :=
  .object [("start", .natural span.start), ("end", .natural span.stop)]

def Payload.document : Payload → Json
  | .number value => .decimal value
  | .text lexeme => .text lexeme

def Token.document (token : Token) : Json :=
  .object [
    ("kind", .text token.kind.name),
    ("value", token.payload.document),
    ("span", token.span.document)]

def Expr.document (e : Expr) : Json :=
  match e with
  | .number value span =>
    .object [("type", .text e.typeName), ("value", .decimal value), ("span", span.document)]
  | .identifier name span =>
    .object [("type", .text e.typeName), ("name", .text name), ("span", span.document)]
  | .binary op left right span =>
    .object [
      ("type", .text e.typeName),
      ("left", left.document),
      ("operator", .text op.symbol),
      ("right", right.document),
      ("span", span.document)]
  | .unary sign operand span =>
    .object [
      ("type", .text e.typeName),
      ("operator", .text sign.symbol),
      ("right", operand.document),
      ("span", span.document)]

def Fault.document (fault : Fault) : Json :=
  .object [
    ("kind", .text fault.stage.name),
    ("message", .text fault.message),
    ("span", .ofOption Span.document fault.span?)]

def Instruction.document (instruction : Instruction) : Json := .text instruction.render

def Stack.document (stack : Stack) : Json := .list (stack.reverse.map .decimal)

def Step.document (step : Step) : Json :=
  .object [
    ("instruction", step.instruction.document),
    ("instructionIndex", .natural step.index),
    ("stackBefore", Stack.document step.before),
    ("stackAfter", Stack.document step.after.stack),
    ("description", .text step.description)]

def Trace.document (trace : Trace) : Json :=
  .object [
    ("steps", .list (trace.steps.map Step.document)),
    -- Traces are made of finished runs only.
    ("isComplete", .bool true),
    ("halted", .bool trace.halted),
    ("result", .ofOption .decimal trace.result?),
    ("error", .ofOption Fault.document trace.final.fault)]

def Answer.document (answer : Answer) : Json :=
  .object [
    ("tokens", .list (answer.tokens.map Token.document)),
    ("ast", .ofOption Expr.document answer.tree),
    ("bytecode", .list (answer.program.map Instruction.document)),
    ("result", .ofOption .decimal answer.result),
    ("execution", .ofOption Trace.document answer.trace),
    ("error", .ofOption Fault.document answer.fault)]

end Abacus
