import Abacus.Expr.Parse

/-!
The grammar of expressions as a relation between token lists and trees, apart from the rules that
read them. Chains of operators group to the left, signs to the right, and parentheses leave no
node. Each phrase carries its nesting: the largest number of signs and open parentheses that one
of its tokens lies in.
-/
namespace Abacus.Grammar

/-- The ranks of operators with two operands, from the loosest to the tightest. -/
inductive Rank where
  | sum
  | product
  | power

/-- The symbols of the grammar. A chain joins operands by the operators of one rank. -/
inductive Symbol where
  | chain (rank : Rank)
  | factor
  | atom

namespace Symbol

@[match_pattern] abbrev expression : Symbol := .chain .sum

@[match_pattern] abbrev term : Symbol := .chain .product

@[match_pattern] abbrev power : Symbol := .chain .power

end Symbol

def Rank.operand : Rank → Symbol
  | .sum => .term
  | .product => .factor
  | .power => .atom

inductive Joins : Rank → TokenKind → BinaryOp → Prop
  | add : Joins .sum .plus .add
  | subtract : Joins .sum .minus .subtract
  | multiply : Joins .product .multiply .multiply
  | divide : Joins .product .divide .divide
  | power : Joins .power .power .power

inductive Signs : TokenKind → Sign → Prop
  | plus : Signs .plus .plus
  | minus : Signs .minus .minus

/-- The token lists that a symbol derives, with their nesting and the tree of the derivation. -/
inductive Phrase : Symbol → Nat → List Token → Expr → Prop
  | number {token : Token} {value : Float} (hkind : token.kind = .number)
      (hvalue : token.number? = some value) :
      Phrase .atom 0 [token] (.number value token.span)
  | identifier {token : Token} (hkind : token.kind = .identifier) :
      Phrase .atom 0 [token] (.identifier token.text token.span)
  | group {opening closing : Token} {depth : Nat} {tokens : List Token} {e : Expr}
      (hopening : opening.kind = .leftParen) (h : Phrase .expression depth tokens e)
      (hclosing : closing.kind = .rightParen) :
      Phrase .atom (depth + 1) (opening :: (tokens ++ [closing])) e
  | operand {rank : Rank} {depth : Nat} {tokens : List Token} {e : Expr}
      (h : Phrase rank.operand depth tokens e) : Phrase (.chain rank) depth tokens e
  | operation {rank : Rank} {op : BinaryOp} {depth depth' : Nat} {token : Token}
      {tokens tokens' : List Token} {left right : Expr}
      (hleft : Phrase (.chain rank) depth tokens left) (hop : Joins rank token.kind op)
      (hright : Phrase rank.operand depth' tokens' right) :
      Phrase (.chain rank) (max depth depth') (tokens ++ token :: tokens')
        (.binary op left right ⟨left.span.start, right.span.stop⟩)
  | signed {sign : Sign} {token : Token} {depth : Nat} {tokens : List Token} {operand : Expr}
      (hsign : Signs token.kind sign) (h : Phrase .factor depth tokens operand) :
      Phrase .factor (depth + 1) (token :: tokens)
        (.unary sign operand ⟨token.span.start, operand.span.stop⟩)
  | unsigned {depth : Nat} {tokens : List Token} {e : Expr} (h : Phrase .power depth tokens e) :
      Phrase .factor depth tokens e

/-- An atom is a phrase of every symbol. -/
theorem Phrase.of_atom {depth : Nat} {tokens : List Token} {e : Expr}
    (h : Phrase .atom depth tokens e) (symbol : Symbol) : Phrase symbol depth tokens e := by
  have hpower : Phrase (.chain .power) depth tokens e := .operand h
  have hterm : Phrase (.chain .product) depth tokens e := .operand (.unsigned hpower)
  cases symbol with
  | chain rank =>
    cases rank with
    | sum => exact .operand hterm
    | product => exact hterm
    | power => exact hpower
  | factor => exact .unsigned hpower
  | atom => exact h

/-- A factor, with or without a sign, is an expression. -/
theorem Phrase.expression_of_factor {depth : Nat} {tokens : List Token} {e : Expr}
    (h : Phrase .factor depth tokens e) : Phrase .expression depth tokens e := by
  have hterm : Phrase (.chain .product) depth tokens e := .operand h
  exact .operand hterm

/-- A chain of any rank is an expression. -/
theorem Phrase.expression_of_chain {rank : Rank} {depth : Nat} {tokens : List Token} {e : Expr}
    (h : Phrase (.chain rank) depth tokens e) : Phrase .expression depth tokens e := by
  cases rank with
  | sum => exact h
  | product => exact .operand h
  | power => exact expression_of_factor (.unsigned h)

def Sentence (tokens : List Token) (e : Expr) : Prop :=
  ∃ depth ≤ Expr.maxNesting, Phrase .expression depth tokens e

/-- The kinds of token that, coming after a phrase of a symbol, make it longer. -/
inductive Extends : Symbol → TokenKind → Prop
  | chain {rank : Rank} {kind : TokenKind} {op : BinaryOp} (h : Joins rank kind op) :
      Extends (.chain rank) kind
  | operand {rank : Rank} {kind : TokenKind} (h : Extends rank.operand kind) :
      Extends (.chain rank) kind
  | factor {kind : TokenKind} (h : Extends .power kind) : Extends .factor kind

def EndsBefore (symbol : Symbol) (rest : List Token) : Prop :=
  ∀ token ∈ rest.head?, ¬ Extends symbol token.kind

theorem endsBefore_nil (symbol : Symbol) : EndsBefore symbol [] := by
  intro token htoken
  cases htoken

theorem endsBefore_cons {symbol : Symbol} {token : Token} {rest : List Token} :
    EndsBefore symbol (token :: rest) ↔ ¬ Extends symbol token.kind := by
  simp [EndsBefore]

theorem EndsBefore.operand {rank : Rank} {rest : List Token}
    (h : EndsBefore (.chain rank) rest) : EndsBefore rank.operand rest :=
  fun token htoken hextends => h token htoken (.operand hextends)

theorem endsBefore_factor {rest : List Token} :
    EndsBefore .factor rest ↔ EndsBefore .power rest := by
  constructor
  · intro h token htoken hextends
    exact h token htoken (.factor hextends)
  · intro h token htoken hextends
    cases hextends with
    | factor hpower => exact h token htoken hpower

def Symbol.final : Symbol → Symbol
  | .chain rank => rank.operand
  | symbol => symbol

theorem EndsBefore.final {symbol : Symbol} {rest : List Token} (h : EndsBefore symbol rest) :
    EndsBefore symbol.final rest := by
  cases symbol with
  | chain rank => exact h.operand
  | factor => exact h
  | atom => exact h

theorem endsBefore_atom (rest : List Token) : EndsBefore .atom rest := by
  intro token htoken h
  cases h

theorem not_extends_atom {kind : TokenKind} : ¬ Extends .atom kind := by
  intro h
  cases h

theorem extends_power {kind : TokenKind} (h : Extends .power kind) : kind = .power := by
  cases h with
  | chain h =>
    cases h
    rfl
  | operand h => exact absurd h not_extends_atom

theorem extends_factor {kind : TokenKind} (h : Extends .factor kind) : kind = .power := by
  cases h with
  | factor h => exact extends_power h

theorem extends_term {kind : TokenKind} (h : Extends .term kind) :
    kind = .power ∨ kind = .multiply ∨ kind = .divide := by
  cases h with
  | chain h => cases h <;> simp
  | operand h => exact Or.inl (extends_factor h)

theorem extends_expression {kind : TokenKind} (h : Extends .expression kind) :
    kind = .power ∨ kind = .multiply ∨ kind = .divide ∨ kind = .plus ∨ kind = .minus := by
  cases h with
  | chain h => cases h <;> simp
  | operand h =>
    rcases extends_term h with h | h | h <;> simp [h]

/-- An operator of a rank ends the operand in front of it. -/
theorem Joins.not_extends_operand {rank : Rank} {kind : TokenKind} {op : BinaryOp}
    (h : Joins rank kind op) : ¬ Extends rank.operand kind := by
  intro hextends
  cases h with
  | add => simpa using extends_term hextends
  | subtract => simpa using extends_term hextends
  | multiply => simpa using extends_factor hextends
  | divide => simpa using extends_factor hextends
  | power => exact not_extends_atom hextends

/-- No phrase is empty, and a chain of atoms does not begin with a sign. -/
theorem Phrase.exists_head {symbol : Symbol} {depth : Nat} {tokens : List Token} {e : Expr}
    (h : Phrase symbol depth tokens e) :
    ∃ first later, tokens = first :: later ∧
      (symbol = .atom ∨ symbol = .power → ∀ sign, ¬ Signs first.kind sign) := by
  induction h with
  | number hkind => exact ⟨_, _, rfl, fun _ sign hsign => by rw [hkind] at hsign; cases hsign⟩
  | identifier hkind => exact ⟨_, _, rfl, fun _ sign hsign => by rw [hkind] at hsign; cases hsign⟩
  | group hopening => exact ⟨_, _, rfl, fun _ sign hsign => by rw [hopening] at hsign; cases hsign⟩
  | @operand rank depth tokens e h ih =>
    obtain ⟨first, later, htokens, hfirst⟩ := ih
    refine ⟨first, later, htokens, ?_⟩
    intro hsymbol
    rcases hsymbol with hatom | hpower
    · cases hatom
    · cases hpower
      exact hfirst (Or.inl rfl)
  | operation hleft hop hright ihl ihr =>
    obtain ⟨first, later, rfl, hfirst⟩ := ihl
    exact ⟨first, _, rfl, hfirst⟩
  | signed =>
    refine ⟨_, _, rfl, ?_⟩
    intro hsymbol
    rcases hsymbol with hatom | hpower
    · cases hatom
    · cases hpower
  | unsigned h ih =>
    obtain ⟨first, later, htokens, hfirst⟩ := ih
    refine ⟨first, later, htokens, ?_⟩
    intro hsymbol
    rcases hsymbol with hatom | hpower
    · cases hatom
    · cases hpower

end Abacus.Grammar
