import Abacus.Expr.Basic

/-!
Reading an expression from tokens by the grammar

    expression := term   (("+" | "-") term)*
    term       := factor (("*" | "/") factor)*
    factor     := ("+" | "-") factor | power
    power      := atom ("^" atom)*
    atom       := number | identifier | "(" expression ")"

Chains of operators are grouped to the left. Signs and parentheses may be nested to a limit: the
rules at one nesting level are built from those of the level inside it, so that the recursion ends
with the levels. A sign or parenthesis is taken before the limit is looked at.
-/
namespace Abacus.Expr

/-- What a rule makes of a token list: an expression read from its front and the tokens after it,
or the fault that stands in the way. -/
abbrev Reading := Except Fault (Expr × List Token)

/-- A rule of the grammar. It takes at least one token for an expression. -/
structure Rule where
  read : List Token → Reading
  shorter {tokens : List Token} {e : Expr} {rest : List Token} :
    read tokens = .ok (e, rest) → rest.length < tokens.length

/-- The rules of a nesting level that the level around it uses. -/
structure Level where
  factor : Rule
  expression : Rule

/-- How many signs and open parentheses a token may lie in. -/
def maxNesting : Nat := 256

def unexpected (token : Token) : Fault := .unexpectedToken token.kind token.span

section Rules

/- The token that ends the input, and the level inside, none at the limit. -/
variable (stop : Token) (inner : Option Level)

/-- The fault of a sign or parenthesis at the limit, shown at the token after it. -/
def tooDeep (rest : List Token) : Fault :=
  .nestingTooDeep maxNesting (rest.head?.getD stop).span

def close (inside : Expr × List Token) : Reading :=
  match inside.2 with
  | [] => .error (.mismatchedToken .rightParen stop.kind stop.span)
  | token :: rest =>
    if token.kind = .rightParen then .ok (inside.1, rest)
    else .error (.mismatchedToken .rightParen token.kind token.span)

def readAtom : List Token → Reading
  | [] => .error (unexpected stop)
  | token :: rest =>
    match token.kind with
    | .number =>
      match token.number? with
      | some value => .ok (.number value token.span, rest)
      | none => .error (unexpected token)
    | .identifier => .ok (.identifier token.text token.span, rest)
    | .leftParen =>
      match inner with
      | none => .error (tooDeep stop rest)
      | some level => (level.expression.read rest).bind (close stop)
    | _ => .error (unexpected token)

def readChain (op? : TokenKind → Option BinaryOp) (operand : Rule) (left : Expr) :
    List Token → Reading
  | [] => .ok (left, [])
  | token :: rest =>
    match op? token.kind with
    | none => .ok (left, token :: rest)
    | some op =>
      match h : operand.read rest with
      | .error fault => .error fault
      | .ok (right, later) =>
        have := operand.shorter h
        readChain op? operand (left.join op right) later
termination_by tokens => tokens.length
decreasing_by
  simp only [List.length_cons]
  omega

def signed (sign : Sign) (token : Token) (operand : Expr) : Expr :=
  .unary sign operand ⟨token.span.start, operand.span.stop⟩

def readFactor (power : Rule) : List Token → Reading
  | [] => power.read []
  | token :: rest =>
    match Sign.ofKind? token.kind with
    | none => power.read (token :: rest)
    | some sign =>
      match inner with
      | none => .error (tooDeep stop rest)
      | some level => (level.factor.read rest).map fun operand =>
        (signed sign token operand.1, operand.2)

theorem length_close {inside : Expr × List Token} {e : Expr} {rest : List Token}
    (h : close stop inside = .ok (e, rest)) : rest.length < inside.2.length := by
  unfold close at h
  split at h
  · cases h
  · next token later hinside =>
    split at h
    · cases h
      simp [hinside]
    · cases h

theorem length_readAtom {tokens : List Token} {e : Expr} {rest : List Token}
    (h : readAtom stop inner tokens = .ok (e, rest)) : rest.length < tokens.length := by
  unfold readAtom at h
  split at h
  · cases h
  · next token later =>
    split at h
    · split at h <;> cases h
      simp
    · cases h
      simp
    · split at h
      · cases h
      · next level =>
        cases hr : level.expression.read later with
        | error fault => rw [hr] at h; cases h
        | ok inside =>
          rw [hr] at h
          have hclose := length_close stop h
          have hinside := level.expression.shorter hr
          simp only [List.length_cons]
          omega
    · cases h

theorem length_readChain (op? : TokenKind → Option BinaryOp) (operand : Rule) {left e : Expr}
    {tokens rest : List Token} (h : readChain op? operand left tokens = .ok (e, rest)) :
    rest.length ≤ tokens.length := by
  fun_induction readChain op? operand left tokens with
  | case1 => cases h; simp
  | case2 => cases h; simp
  | case3 => cases h
  | case4 left token later op hop right after hread _ ih =>
    have := operand.shorter hread
    have := ih h
    simp only [List.length_cons]
    omega

theorem length_readFactor {power : Rule} {tokens : List Token} {e : Expr} {rest : List Token}
    (h : readFactor stop inner power tokens = .ok (e, rest)) : rest.length < tokens.length := by
  unfold readFactor at h
  split at h
  · exact power.shorter h
  · next token later =>
    split at h
    · exact power.shorter h
    · split at h
      · cases h
      · next level =>
        cases hr : level.factor.read later with
        | error fault => rw [hr] at h; cases h
        | ok operand =>
          rw [hr] at h
          cases h
          have := level.factor.shorter hr
          simp only [List.length_cons]
          omega

def atom : Rule := ⟨readAtom stop inner, length_readAtom stop inner⟩

def chain (op? : TokenKind → Option BinaryOp) (operand : Rule) : Rule where
  read tokens := (operand.read tokens).bind fun first => readChain op? operand first.1 first.2
  shorter {tokens e rest} h := by
    cases hr : operand.read tokens with
    | error fault => rw [hr] at h; cases h
    | ok first =>
      rw [hr] at h
      exact Nat.lt_of_le_of_lt (length_readChain op? operand h) (operand.shorter hr)

def power : Rule := chain BinaryOp.ofPower? (atom stop inner)

def factor : Rule :=
  ⟨readFactor stop inner (power stop inner), length_readFactor stop inner⟩

def term : Rule := chain BinaryOp.ofProduct? (factor stop inner)

def expression : Rule := chain BinaryOp.ofSum? (term stop inner)

def Level.around : Level := ⟨Expr.factor stop inner, Expr.expression stop inner⟩

def Level.ofDepth : Nat → Level
  | 0 => Level.around stop none
  | depth + 1 => Level.around stop (some (ofDepth depth))

end Rules

/-- The tokens before the first end of input, and that end. A list that does not close with one
is taken to end where its last token does. -/
def splitEnd (tokens : List Token) : List Token × Token :=
  let before := tokens.takeWhile (·.kind != .eof)
  let offset := (tokens.getLast?.map (·.span.stop)).getD 0
  (before, (tokens.find? (·.kind == .eof)).getD (Token.endOfInput offset))

def parse (tokens : List Token) : Except Fault Expr :=
  let (body, stop) := splitEnd tokens
  match (Level.ofDepth stop maxNesting).expression.read body with
  | .error fault => .error fault
  | .ok (e, []) => .ok e
  | .ok (_, token :: _) => .error (unexpected token)

end Abacus.Expr
