import Abacus.Decimal.Numeral
import Abacus.Fault
import Abacus.Text.Blank

/-!
Cutting a source into tokens. From the left, each lexeme is the longest one that its first
character can begin: a run of digits and points, a run of letters, digits and underscores, or else
that character alone. Blank characters give no token, and the end of the source gives one.
-/
namespace Abacus.Token

def isNumeralChar (c : Char) : Bool := c.isDigit || c == '.'

def isNameStart (c : Char) : Bool := c.isAlpha || c == '_'

def isNameChar (c : Char) : Bool := c.isAlphanum || c == '_'

def symbolKind? : Char → Option TokenKind
  | '+' => some .plus
  | '-' => some .minus
  | '*' => some .multiply
  | '/' => some .divide
  | '^' => some .power
  | '(' => some .leftParen
  | ')' => some .rightParen
  | '=' => some .assign
  | _ => none

def continues (first c : Char) : Bool :=
  if isNumeralChar first then isNumeralChar c
  else isNameStart first && isNameChar c

def ofLexeme? (span : Span) (first : Char) (lexeme : List Char) : Except Fault (Option Token) :=
  let text := String.ofList lexeme
  if Text.isBlank first then .ok none
  else if isNumeralChar first then
    match Numeral.read lexeme with
    | some value => .ok (some ⟨.number, .number value, span⟩)
    | none => .error (.malformedNumber text span)
  else if isNameStart first then .ok (some ⟨.identifier, .text text, span⟩)
  else match symbolKind? first with
    | some kind => .ok (some ⟨kind, .text text, span⟩)
    | none => .error (.invalidCharacter first span)

theorem length_dropWhile_le {α : Type} (p : α → Bool) (l : List α) :
    (l.dropWhile p).length ≤ l.length :=
  (List.dropWhile_suffix p).length_le

def scanFrom (offset : Nat) : List Char → Except Fault (List Token)
  | [] => .ok [endOfInput offset]
  | first :: rest => do
    let lexeme := first :: rest.takeWhile (continues first)
    let next := offset + lexeme.length
    let token? ← ofLexeme? ⟨offset, next⟩ first lexeme
    let later ← scanFrom next (rest.dropWhile (continues first))
    return token?.toList ++ later
termination_by cs => cs.length
decreasing_by
  have := length_dropWhile_le (continues first) rest
  simp only [List.length_cons]
  omega

def scan (source : List Char) : Except Fault (List Token) := scanFrom 0 source

end Abacus.Token
