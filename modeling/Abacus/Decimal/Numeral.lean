import Abacus.Decimal.Binary

/-!
Reading a number from text. A numeral is an optional sign and either a decimal (digits with at
most one point, at least one digit, then an optional exponent) or one of the words `inf`,
`infinity` and `nan` in any case. Nothing else may stand in the text, blanks included.
-/
namespace Abacus.Numeral

def splitSign : List Char → Bool × List Char
  | '-' :: rest => (true, rest)
  | '+' :: rest => (false, rest)
  | cs => (false, cs)

def ofDigits (cs : List Char) : Nat := Nat.ofDigitChars 10 cs 0

def exponent? : List Char → Option Int
  | [] => some 0
  | mark :: rest =>
    let (negative, digits) := splitSign rest
    if (mark == 'e' || mark == 'E') && !digits.isEmpty && digits.all Char.isDigit then
      some (if negative then -(ofDigits digits : Int) else ofDigits digits)
    else none

def splitFraction : List Char → List Char × List Char
  | '.' :: rest => (rest.takeWhile Char.isDigit, rest.dropWhile Char.isDigit)
  | rest => ([], rest)

def decimal? (cs : List Char) : Option Decimal :=
  let whole := cs.takeWhile Char.isDigit
  let (fraction, rest) := splitFraction (cs.dropWhile Char.isDigit)
  if whole.isEmpty && fraction.isEmpty then none
  else (exponent? rest).map fun exponent =>
    ⟨ofDigits (whole ++ fraction), exponent - fraction.length⟩

def magnitude? (cs : List Char) : Option Nat :=
  let word := String.ofList (cs.map Char.toLower)
  if word = "inf" || word = "infinity" then some Binary.infinity
  else if word = "nan" then some Binary.quietNaN
  else (decimal? cs).map Binary.ofDecimal

def read (cs : List Char) : Option Float :=
  let (negative, rest) := splitSign cs
  (magnitude? rest).map (Binary.toFloat negative)

end Abacus.Numeral
