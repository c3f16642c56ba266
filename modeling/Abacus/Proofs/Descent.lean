import Abacus.Proofs.Grammar

/-!
The rules of the grammar as procedures that share one parser. The parser has a cursor in the token
list and counts the signs and parentheses that it is inside; a procedure may change both, whether it
succeeds or fails. The states that the parser passes through and the calls of its procedures are
noted, and nothing reads these notes.

A run is halted, and has no outcome, where it looks at a place outside the token list or would
count below zero. It is also halted where a loop takes more turns, or more calls are under way at a
time, than two bounds allow. These bounds carry the recursion: that a run would come to an end
without them is not built in.
-/
namespace Abacus

/-- The state of a parser. The tokens stay the same. -/
structure Parser where
  tokens : List Token
  current : Nat
  depth : Nat

namespace Parser

open Abacus.Expr Grammar

def new (tokens : List Token) : Parser :=
  if tokens.getLast?.map (·.kind) = some .eof then ⟨tokens, 0, 0⟩
  else
    let offset := (tokens.getLast?.map (·.span.stop)).getD 0
    ⟨tokens ++ [.endOfInput offset], 0, 0⟩

def Faces (parser : Parser) (token : Token) : Prop :=
  parser.tokens[parser.current]? = some token

/-- A call of the procedure of a symbol that has ended: the parser before and after it, and what
came of it. -/
structure Call where
  symbol : Symbol
  before : Parser
  after : Parser
  outcome : Except Fault Expr

/-- A parser at work, with its earlier states and the calls that have ended, the latest first. -/
structure History where
  now : Parser
  past : List Parser
  calls : List Call

namespace History

def start (parser : Parser) : History := ⟨parser, [], []⟩

def states (history : History) : List Parser := history.now :: history.past

/-- Every change of the parser goes through here. -/
def change (history : History) (parser : Parser) : History :=
  { history with now := parser, past := history.states }

def note (history : History) (call : Call) : History :=
  { history with calls := call :: history.calls }

def forward (history : History) : History :=
  history.change { history.now with current := history.now.current + 1 }

def deeper (history : History) : History :=
  history.change { history.now with depth := history.now.depth + 1 }

def leave? (history : History) : Option History :=
  match history.now.depth with
  | 0 => none
  | depth + 1 => some (history.change { history.now with depth })

end History

/-- What a procedure does: it has an outcome and leaves a history, unless it is halted. -/
abbrev Parsing := ExceptT Fault (StateT History Option)

def halt : Parsing Expr := fun _ => none

def tokenAt (index : Nat) : Parsing Token := fun history => do
  let token ← history.now.tokens[index]?
  return (.ok token, history)

def peek : Parsing Token := do tokenAt (← get).now.current

def previous : Parsing Token := do tokenAt ((← get).now.current - 1)

def check (kind : TokenKind) : Parsing Bool := return (← peek).kind == kind

def isAtEnd : Parsing Bool := check .eof

def advance : Parsing Token := do
  unless ← isAtEnd do modify History.forward
  previous

def matchKinds : List TokenKind → Parsing Bool
  | [] => return false
  | kind :: kinds => do
    if ← check kind then
      let _ ← advance
      return true
    else matchKinds kinds

def consume (kind : TokenKind) : Parsing Token := do
  if ← check kind then advance
  else
    let found ← peek
    throw (.mismatchedToken kind found.kind found.span)

def refuse : Parsing Expr := do throw (unexpected (← peek))

def enter : Parsing Unit := do
  if (← get).now.depth ≥ maxNesting then
    throw (.nestingTooDeep maxNesting (← peek).span)
  modify History.deeper

def signKinds : List TokenKind := [.plus, .minus]

def operatorKinds : Rank → List TokenKind
  | .sum => [.plus, .minus]
  | .product => [.multiply, .divide]
  | .power => [.power]

section Procedures

/- How a procedure calls the others. -/
variable (call : Symbol → Parsing Expr)

def nested (symbol : Symbol) : Parsing Expr := do
  enter
  fun history => do
    let (outcome, later) ← call symbol history
    return (outcome, ← later.leave?)

def extend (rank : Rank) : Nat → Expr → Parsing Expr
  | 0, _ => halt
  | turns + 1, left => do
    if ← matchKinds (operatorKinds rank) then
      let op ← BinaryOp.ofToken (← previous)
      let right ← call rank.operand
      extend rank turns (left.join op right)
    else return left

def procedure (turns : Nat) : Symbol → Parsing Expr
  | .chain rank => do extend call rank turns (← call rank.operand)
  | .factor => do
    if ← matchKinds signKinds then
      let sign ← Sign.ofToken (← previous)
      let start := (← previous).span.start
      let operand ← nested call .factor
      return .unary sign operand ⟨start, operand.span.stop⟩
    else call .power
  | .atom => do
    let token ← peek
    match token.kind with
    | .number =>
      let _ ← advance
      match token.number? with
      | some value => return .number value token.span
      | none => throw (unexpected token)
    | .identifier =>
      let _ ← advance
      return .identifier token.text token.span
    | .leftParen =>
      let _ ← advance
      let e ← nested call .expression
      let _ ← consume .rightParen
      return e
    | _ => refuse

end Procedures

section Runs

/- The bounds on a run: the turns of a loop, and the calls that may be under way at a time. -/
variable (turns : Nat)

def call : Nat → Symbol → Parsing Expr
  | 0, _ => halt
  | height + 1, symbol => fun history => do
    let (outcome, later) ← procedure (call height) turns symbol history
    return (outcome, later.note ⟨symbol, history.now, later.now, outcome⟩)

variable (height : Nat)

def parse : Parsing Expr := do
  let e ← call turns height .expression
  if ← isAtEnd then return e else refuse

def run (tokens : List Token) : Option (Except Fault Expr × History) :=
  parse turns height (.start (new tokens))

end Runs

end Parser
end Abacus
