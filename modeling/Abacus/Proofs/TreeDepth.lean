import Abacus.Proofs.Sources

/-!
How deep the tree of a source is. Signs and parentheses count against the nesting limit, and so the
limit bounds the turns of a path from the root, its steps to the operand of a sign or to a right
operand: three for each level, one for each rank of operators. Steps to a left operand do not
count. A chain of operators makes its tree deeper with each of them, so there is no height that the
trees of all sources keep to; a tree is only less high than its source has tokens.
-/
namespace Abacus

open Token Grammar

namespace Expr

def height : Expr → Nat
  | .number .. | .identifier .. => 1
  | .binary _ left right _ => max left.height right.height + 1
  | .unary _ operand _ => operand.height + 1

/-- The largest number of steps on a path from the root that do not go to a left operand. -/
def turns : Expr → Nat
  | .number .. | .identifier .. => 0
  | .binary _ left right _ => max left.turns (right.turns + 1)
  | .unary _ operand _ => operand.turns + 1

end Expr

namespace Grammar

def Symbol.turns : Symbol → Nat
  | .atom => 0
  | .factor | .power => 1
  | .term => 2
  | .expression => 3

theorem Rank.turns_operand (rank : Rank) :
    rank.operand.turns + 1 = (Symbol.chain rank).turns := by
  cases rank <;> rfl

variable {symbol : Symbol} {depth : Nat} {tokens : List Token} {e : Expr}

theorem Phrase.turns_le (h : Phrase symbol depth tokens e) :
    e.turns ≤ 3 * depth + symbol.turns := by
  induction h with
  | number => exact Nat.zero_le _
  | identifier => exact Nat.zero_le _
  | group hopening h hclosing ih =>
    simp only [Symbol.turns] at ih ⊢
    omega
  | @operand rank depth tokens e h ih =>
    have hrank := rank.turns_operand
    omega
  | @operation rank op depth depth' token tokens tokens' left right hleft hop hright ihl ihr =>
    have hrank := rank.turns_operand
    simp only [Expr.turns]
    omega
  | signed hsign h ih =>
    simp only [Expr.turns, Symbol.turns] at ih ⊢
    omega
  | unsigned h ih => exact ih

theorem Phrase.height_le (h : Phrase symbol depth tokens e) : e.height ≤ tokens.length := by
  induction h with
  | number => exact Nat.le_refl 1
  | identifier => exact Nat.le_refl 1
  | group hopening h hclosing ih =>
    simp only [List.length_cons, List.length_append]
    omega
  | operand h ih => exact ih
  | operation hleft hop hright ihl ihr =>
    simp only [Expr.height, List.length_append, List.length_cons]
    omega
  | signed hsign h ih =>
    simp only [Expr.height, List.length_cons]
    omega
  | unsigned h ih => exact ih

end Grammar

section Chains

def flatSum : Nat → List Char
  | 0 => ['x']
  | n + 1 => flatSum n ++ ['+', 'x']

def flatSumTokens : Nat → List Token
  | 0 => [⟨.identifier, .text "x", ⟨0, 1⟩⟩]
  | n + 1 =>
    let offset := (flatSum n).length
    flatSumTokens n ++ [⟨.plus, .text "+", ⟨offset, offset + 1⟩⟩,
      ⟨.identifier, .text "x", ⟨offset + 1, offset + 2⟩⟩]

theorem cut_flatSum (n : Nat) : Cut 0 (flatSum n) (flatSumTokens n) := by
  have hx : Spells .identifier (.text "x") ['x'] := spells_letter rfl
  induction n with
  | zero => exact hx.cut 0
  | succ n ih =>
    have hplus : TokenKind.plus.symbol? = some '+' := rfl
    have hmore := (hx.cut ((flatSum n).length + 1)).symbol hplus
    refine ih.append ?_ ?_
    · rwa [Nat.zero_add]
    · simpa using separates_of_symbol hplus

def flatSumTree : Nat → Expr
  | 0 => .identifier "x" ⟨0, 1⟩
  | n + 1 =>
    let offset := (flatSum n).length
    (flatSumTree n).join .add (.identifier "x" ⟨offset + 1, offset + 2⟩)

theorem phrase_flatSum (n : Nat) : Phrase .expression 0 (flatSumTokens n) (flatSumTree n) := by
  have hx : ∀ span, Phrase .atom 0 [⟨.identifier, .text "x", span⟩] (.identifier "x" span) :=
    fun span => .identifier rfl
  induction n with
  | zero => exact (hx _).of_atom .expression
  | succ n ih => exact .operation ih .add ((hx _).of_atom .term)

theorem height_flatSumTree (n : Nat) : (flatSumTree n).height = n + 1 := by
  induction n with
  | zero => rfl
  | succ n ih =>
    simp only [flatSumTree, Expr.join, Expr.height, ih]
    omega

/-- A sum has a tree, however long it is. -/
theorem parse_flatSum (n : Nat) :
    let tokens := flatSumTokens n ++ [endOfInput (flatSum n).length]
    scan (String.ofList (flatSum n)).toList = .ok tokens ∧
      Expr.parse tokens = .ok (flatSumTree n) := by
  have hsentence : Sentence (flatSumTokens n) (flatSumTree n) :=
    ⟨0, Nat.zero_le _, phrase_flatSum n⟩
  obtain ⟨hscan, hparse⟩ := parse_of_cut (cut_flatSum n) hsentence
  exact ⟨by rwa [String.toList_ofList], hparse⟩

end Chains

/-- No height bounds the trees of all sources. -/
theorem not_exists_height_bound :
    ¬ ∃ bound, ∀ (source : String) (tokens : List Token) (tree : Expr),
      scan source.toList = .ok tokens → Expr.parse tokens = .ok tree → tree.height ≤ bound := by
  rintro ⟨bound, hbound⟩
  obtain ⟨hscan, hparse⟩ := parse_flatSum bound
  have hle := hbound _ _ _ hscan hparse
  rw [height_flatSumTree] at hle
  omega

/-- No path in the tree of a source takes more turns than the nesting limit allows, three for each
level and three outside them all, and the tree is less high than the source has tokens. -/
theorem turns_le_of_parse {source : String} {tokens : List Token} {tree : Expr}
    (hscan : scan source.toList = .ok tokens) (hparse : Expr.parse tokens = .ok tree) :
    tree.turns ≤ 3 * (Expr.maxNesting + 1) ∧ tree.height < tokens.length := by
  obtain ⟨lexemes, rfl, -, depth, hdepth, hphrase⟩ := exists_cut_of_parse hscan hparse
  have hturns : tree.turns ≤ 3 * depth + 3 := hphrase.turns_le
  have hheight := hphrase.height_le
  rw [List.length_append, List.length_singleton]
  omega

/-- A sum of a thousand additions is higher than its turns. -/
theorem turns_le_of_long_sum :
    let tokens := flatSumTokens 1000 ++ [endOfInput (flatSum 1000).length]
    ∃ tree, scan (String.ofList (flatSum 1000)).toList = .ok tokens ∧
      Expr.parse tokens = .ok tree ∧ tree.height = 1001 ∧ tree.turns ≤ 771 ∧
      tree.height < tokens.length := by
  intro tokens
  obtain ⟨hscan, hparse⟩ := parse_flatSum 1000
  obtain ⟨hturns, htokens⟩ := turns_le_of_parse hscan hparse
  exact ⟨flatSumTree 1000, hscan, hparse, height_flatSumTree 1000, hturns, htokens⟩

end Abacus
