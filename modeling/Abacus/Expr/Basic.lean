import Abacus.Fault

/-!
Arithmetic expressions as trees, each node with the stretch of source it came from.
-/
namespace Abacus

inductive BinaryOp where
  | add
  | subtract
  | multiply
  | divide
  | power
deriving DecidableEq, Repr

inductive Sign where
  | plus
  | minus
deriving DecidableEq, Repr

inductive Expr where
  | number (value : Float) (span : Span)
  | identifier (name : String) (span : Span)
  | binary (op : BinaryOp) (left right : Expr) (span : Span)
  | unary (sign : Sign) (operand : Expr) (span : Span)
deriving DecidableEq

namespace BinaryOp

def symbol : BinaryOp → String
  | .add => "+"
  | .subtract => "-"
  | .multiply => "*"
  | .divide => "/"
  | .power => "^"

theorem length_symbol (op : BinaryOp) : op.symbol.toList.length = 1 := by cases op <;> rfl

theorem symbol_inj {op op' : BinaryOp} (h : op.symbol = op'.symbol) : op = op' := by
  cases op <;> cases op' <;> first | rfl | simp [symbol] at h

def ofSum? : TokenKind → Option BinaryOp
  | .plus => some .add
  | .minus => some .subtract
  | _ => none

def ofProduct? : TokenKind → Option BinaryOp
  | .multiply => some .multiply
  | .divide => some .divide
  | _ => none

def ofPower? : TokenKind → Option BinaryOp
  | .power => some .power
  | _ => none

end BinaryOp

namespace Sign

def symbol : Sign → String
  | .plus => "+"
  | .minus => "-"

theorem length_symbol (sign : Sign) : sign.symbol.toList.length = 1 := by cases sign <;> rfl

theorem symbol_inj {sign sign' : Sign} (h : sign.symbol = sign'.symbol) : sign = sign' := by
  cases sign <;> cases sign' <;> first | rfl | simp [symbol] at h

def ofKind? : TokenKind → Option Sign
  | .plus => some .plus
  | .minus => some .minus
  | _ => none

end Sign

def Token.unknownOperator (token : Token) : Fault :=
  .unknownOperator token.payload.render token.span

def BinaryOp.ofToken (token : Token) : Except Fault BinaryOp :=
  match ofSum? token.kind <|> ofProduct? token.kind <|> ofPower? token.kind with
  | some op => .ok op
  | none => .error token.unknownOperator

def Sign.ofToken (token : Token) : Except Fault Sign :=
  match ofKind? token.kind with
  | some sign => .ok sign
  | none => .error token.unknownOperator

namespace Expr

def span : Expr → Span
  | .number _ span | .identifier _ span | .binary _ _ _ span | .unary _ _ span => span

def join (op : BinaryOp) (left right : Expr) : Expr :=
  .binary op left right ⟨left.span.start, right.span.stop⟩

def typeName : Expr → String
  | .number .. => "NUMBER"
  | .identifier .. => "IDENTIFIER"
  | .binary .. => "BINARY_OP"
  | .unary .. => "UNARY_OP"

def label : Expr → String
  | .number value _ => showNumber value
  | .identifier name _ => name
  | .binary op _ _ _ => op.symbol
  | .unary sign _ _ => sign.symbol

def nodes : Expr → List Expr
  | e@(.number ..) | e@(.identifier ..) => [e]
  | e@(.binary _ left right _) => e :: (left.nodes ++ right.nodes)
  | e@(.unary _ operand _) => e :: operand.nodes

end Expr
end Abacus
