import Abacus.Expr.Basic

/-!
Two texts of a tree: one line in operator-first form, and an outline with one line for each node.
-/
namespace Abacus.Expr

def render : Expr → String
  | .number value _ => showNumber value
  | .identifier name _ => name
  | .binary op left right _ => "(" ++ op.symbol ++ " " ++ left.render ++ " " ++ right.render ++ ")"
  | .unary sign operand _ => "(" ++ sign.symbol ++ " " ++ operand.render ++ ")"

/-- The lines of an outline. The first is the node's own, after `lead`; those of the nodes under
it begin with `indent`. -/
def outlineLines (lead indent : String) : Expr → List String
  | e@(.number ..) | e@(.identifier ..) => [lead ++ e.typeName ++ " " ++ e.label]
  | e@(.binary _ left right _) =>
    (lead ++ e.typeName ++ " " ++ e.label) ::
      (left.outlineLines (indent ++ "├─ left: ") (indent ++ "│  ") ++
        right.outlineLines (indent ++ "└─ right: ") (indent ++ "   "))
  | e@(.unary _ operand _) =>
    (lead ++ e.typeName ++ " " ++ e.label) ::
      operand.outlineLines (indent ++ "└─ operand: ") (indent ++ "   ")

def outline (e : Expr) : String :=
  String.join ((e.outlineLines "" "").map (· ++ "\n"))

end Abacus.Expr
