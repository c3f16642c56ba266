import Abacus.Decimal.Style

/-!
Documents in JavaScript Object Notation, printed with an indent of two blanks. The printer puts
its text in front of a given rest.
-/
namespace Abacus

inductive Json where
  | null
  | bool (value : Bool)
  | natural (value : Nat)
  | decimal (value : Float)
  | text (value : String)
  | list (items : List Json)
  | object (fields : List (String × Json))

namespace Json

def ofOption {α : Type} (encode : α → Json) : Option α → Json
  | some a => encode a
  | none => .null

def escape (c : Char) : List Char :=
  if c == '"' then ['\\', '"']
  else if c == '\\' then ['\\', '\\']
  else if c == '\n' then ['\\', 'n']
  else if c == '\t' then ['\\', 't']
  else if c == '\r' then ['\\', 'r']
  else if c.toNat = 0x08 then ['\\', 'b']
  else if c.toNat = 0x0C then ['\\', 'f']
  else if c.toNat < 0x20 then
    ['\\', 'u', '0', '0', Nat.digitChar (c.toNat / 16), Nat.digitChar (c.toNat % 16)]
  else [c]

def quote (text : String) (rest : List Char) : List Char :=
  '"' :: (text.toList.flatMap escape ++ '"' :: rest)

def newLine (depth : Nat) (rest : List Char) : List Char :=
  '\n' :: (List.replicate (2 * depth) ' ' ++ rest)

def number (value : Float) : List Char :=
  if Binary.isFinite value then (NumberStyle.document.write value).toList
  else ['n', 'u', 'l', 'l']

mutual

/-- The text of a document at a depth of nesting, in front of `rest`. -/
def chars (depth : Nat) (rest : List Char) : Json → List Char
  | .null => 'n' :: 'u' :: 'l' :: 'l' :: rest
  | .bool true => 't' :: 'r' :: 'u' :: 'e' :: rest
  | .bool false => 'f' :: 'a' :: 'l' :: 's' :: 'e' :: rest
  | .natural value => Nat.toDigits 10 value ++ rest
  | .decimal value => number value ++ rest
  | .text value => quote value rest
  | .list [] => '[' :: ']' :: rest
  | .list (item :: items) =>
    '[' :: newLine (depth + 1)
      (chars (depth + 1) (itemsChars (depth + 1) (newLine depth (']' :: rest)) items) item)
  | .object [] => '{' :: '}' :: rest
  | .object ((name, value) :: fields) =>
    '{' :: newLine (depth + 1) (quote name (':' :: ' ' ::
      chars (depth + 1) (fieldsChars (depth + 1) (newLine depth ('}' :: rest)) fields) value))

def itemsChars (depth : Nat) (rest : List Char) : List Json → List Char
  | [] => rest
  | item :: items => ',' :: newLine depth (chars depth (itemsChars depth rest items) item)

def fieldsChars (depth : Nat) (rest : List Char) : List (String × Json) → List Char
  | [] => rest
  | (name, value) :: fields =>
    ',' :: newLine depth (quote name (':' :: ' ' ::
      chars depth (fieldsChars depth rest fields) value))

end

def print (document : Json) : String := String.ofList (document.chars 0 [])

end Json
end Abacus
