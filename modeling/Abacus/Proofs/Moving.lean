import Abacus.Program.Compile
import Abacus.Proofs.Sources

/-!
Texts that stand further right in a source. The same lexemes are found there, their tokens moved to
the right, and moved tokens spell the same tree with its spans moved. Programs know nothing of
spans, so the program of a text does not depend on where it stands.
-/
namespace Abacus

def Span.moved (distance : Nat) (span : Span) : Span :=
  ⟨span.start + distance, span.stop + distance⟩

def Token.moved (distance : Nat) (token : Token) : Token :=
  { token with span := token.span.moved distance }

def Expr.moved (distance : Nat) : Expr → Expr
  | .number value span => .number value (span.moved distance)
  | .identifier name span => .identifier name (span.moved distance)
  | .binary op left right span =>
    .binary op (left.moved distance) (right.moved distance) (span.moved distance)
  | .unary sign operand span => .unary sign (operand.moved distance) (span.moved distance)

namespace Expr

theorem span_moved (distance : Nat) (e : Expr) :
    (e.moved distance).span = e.span.moved distance := by
  cases e <;> rfl

theorem compileThen_moved (distance : Nat) (e : Expr) (next : Program) :
    (e.moved distance).compileThen next = e.compileThen next := by
  induction e generalizing next with
  | number value span => rfl
  | identifier name span => rfl
  | binary op left right span ihl ihr => rw [moved, compileThen, compileThen, ihl, ihr]
  | unary sign operand span ih =>
    rw [moved]
    cases sign with
    | plus => rw [compileThen, compileThen, ih]
    | minus => rw [compileThen, compileThen, ih]

theorem compile_moved (distance : Nat) (e : Expr) : (e.moved distance).compile = e.compile :=
  e.compileThen_moved distance []

end Expr

theorem Token.Cut.moved {offset : Nat} {text : List Char} {lexemes : List Token}
    (h : Cut offset text lexemes) (distance : Nat) :
    Cut (offset + distance) text (lexemes.map (Token.moved distance)) := by
  induction h with
  | nil offset => exact .nil (offset + distance)
  | blank hc h ih =>
    rw [Nat.add_right_comm] at ih
    exact .blank hc ih
  | @lexeme offset kind payload lexeme rest lexemes hspells hends h ih =>
    have hspan : Span.moved distance ⟨offset, offset + lexeme.length⟩ =
        ⟨offset + distance, offset + distance + lexeme.length⟩ := by
      rw [Span.moved, Nat.add_right_comm]
    rw [Nat.add_right_comm] at ih
    rw [List.map_cons, Token.moved, hspan]
    exact .lexeme hspells hends ih

theorem Grammar.Phrase.moved {symbol : Symbol} {depth : Nat} {tokens : List Token} {e : Expr}
    (h : Phrase symbol depth tokens e) (distance : Nat) :
    Phrase symbol depth (tokens.map (Token.moved distance)) (e.moved distance) := by
  induction h with
  | number hkind hvalue => exact .number hkind hvalue
  | identifier hkind => exact .identifier hkind
  | @group opening closing depth tokens e hopening h hclosing ih =>
    rw [List.map_cons, List.map_append]
    exact .group hopening ih hclosing
  | operand h ih => exact .operand ih
  | @operation rank op depth depth' token tokens tokens' left right hleft hop hright ihl ihr =>
    have hmoved : Joins rank (token.moved distance).kind op := hop
    have hjoined := Phrase.operation ihl hmoved ihr
    rw [Expr.span_moved, Expr.span_moved] at hjoined
    rw [List.map_append, List.map_cons]
    exact hjoined
  | @signed sign token depth tokens operand hsign h ih =>
    have hmoved : Signs (token.moved distance).kind sign := hsign
    have hjoined := Phrase.signed hmoved ih
    rw [Expr.span_moved] at hjoined
    exact hjoined
  | unsigned h ih => exact .unsigned ih

end Abacus
