import Abacus.Decimal.Style
import Abacus.Span

/-!
Tokens: the lexemes of a source with their kind, their content and the place where they stand.
-/
namespace Abacus

inductive TokenKind where
  | number
  | identifier
  | plus
  | minus
  | multiply
  | divide
  | power
  | leftParen
  | rightParen
  | assign
  | eof
deriving DecidableEq, Repr

def TokenKind.name : TokenKind → String
  | .number => "NUMBER"
  | .identifier => "IDENTIFIER"
  | .plus => "PLUS"
  | .minus => "MINUS"
  | .multiply => "MULTIPLY"
  | .divide => "DIVIDE"
  | .power => "POWER"
  | .leftParen => "LPAREN"
  | .rightParen => "RPAREN"
  | .assign => "ASSIGN"
  | .eof => "EOF"

theorem TokenKind.name_inj {kind kind' : TokenKind} (h : kind.name = kind'.name) :
    kind = kind' := by
  cases kind <;> cases kind' <;> first | rfl | simp [name] at h

inductive Payload where
  | number (value : Float)
  | text (lexeme : String)
deriving DecidableEq

/-- Tokens may be built by hand, so nothing ties the payload to the kind. -/
structure Token where
  kind : TokenKind
  payload : Payload
  span : Span
deriving DecidableEq

def Payload.render : Payload → String
  | .number value => showNumber value
  | .text lexeme => lexeme

namespace Token

def endOfInput (offset : Nat) : Token := ⟨.eof, .text "EOF", ⟨offset, offset⟩⟩

def number? (token : Token) : Option Float :=
  match token.payload with
  | .number value => some value
  | .text _ => none

def text (token : Token) : String :=
  match token.payload with
  | .number _ => ""
  | .text lexeme => lexeme

def render (token : Token) : String :=
  let offset := "@" ++ toString token.span.start
  match token.kind with
  | .number | .identifier => token.kind.name ++ "(" ++ token.payload.render ++ ")" ++ offset
  | _ => token.kind.name ++ offset

end Token
end Abacus
