/-!
Text as it is shown where nothing obeys its control sequences. Control characters are left out,
and so are the sequences that an escape character begins; line ends and tabs are shown. One that
stands inside a sequence breaks into it: what follows is shown up to the next control character,
and from there the sequence goes on.
-/
namespace Abacus.Text

/-- What the text read so far has begun and not ended. -/
inductive ControlState where
  | plain
  | escape
  /-- An escape with intermediate characters. -/
  | intermediate
  /-- A control sequence, which a character from `@` to `~` ends. -/
  | control
  /-- A command to the system, which a bell ends. -/
  | command
  /-- A device control string before its text. -/
  | device
  | deviceParameter
  | deviceIntermediate
  /-- Text that is not for the reader, which the byte `9C` ends. -/
  | string
deriving DecidableEq, Repr

def isSpacing (c : Char) : Bool := c == '\t' || c == '\n' || c == '\x0C' || c == '\r'

def isShown (c : Char) : Bool := (' ' ≤ c && c ≤ '~') || '\x80' ≤ c || isSpacing c

namespace ControlState

/-- Where a character that is not shown leads. An escape begins anew, and the characters `18` and
`1A` break off what was begun. -/
def after (state : ControlState) (c : Char) : ControlState :=
  if c = '\x1B' then .escape
  else if c = '\x18' || c = '\x1A' then .plain
  else match state with
    | .plain => .plain
    | .escape =>
      if c < ' ' || '~' < c then .escape
      else if c ≤ '/' then .intermediate
      else match c with
        | '[' => .control
        | ']' => .command
        | 'P' => .device
        | 'X' | '^' | '_' => .string
        | _ => .plain
    | .intermediate => if '0' ≤ c && c ≤ '~' then .plain else .intermediate
    | .control => if '@' ≤ c && c ≤ '~' then .plain else .control
    | .command => if c = '\x07' then .plain else .command
    | .device =>
      if c < ' ' || '~' < c then .device
      else if c ≤ '/' then .deviceIntermediate
      else if c ≤ '?' then .deviceParameter
      else .string
    | .deviceParameter =>
      if c < ' ' || '~' < c then .deviceParameter
      else if c ≤ '/' then .deviceIntermediate
      else if c ≤ ';' then .deviceParameter
      else .string
    | .deviceIntermediate => if '0' ≤ c && c ≤ '~' then .string else .deviceIntermediate
    | .string => if (String.utf8EncodeChar c).contains 0x9C then .plain else .string

def shows (state : ControlState) (c : Char) : Bool :=
  match state with
  | .plain => true
  | .escape | .intermediate | .control => isSpacing c
  | _ => false

end ControlState

/-- The shown part of a text. While `showing` holds, the sequence begun is broken into. -/
def visibleFrom (state : ControlState) (showing : Bool) : List Char → List Char
  | [] => []
  | c :: rest =>
    if isShown c && (showing || state.shows c) then
      c :: visibleFrom (if c < '\x80' then state else .plain) true rest
    else visibleFrom (state.after c) false rest

def visible (text : String) : String := String.ofList (visibleFrom .plain true text.toList)

end Abacus.Text
