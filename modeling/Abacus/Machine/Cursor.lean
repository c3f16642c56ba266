import Abacus.Machine.Trace

/-!
A cursor over the steps of a trace. It stays between the first and the last step.
-/
namespace Abacus

structure Cursor where
  trace : Trace
  position : Nat
deriving DecidableEq

def Trace.cursor (trace : Trace) : Cursor := ⟨trace, 0⟩

namespace Cursor

def length (cursor : Cursor) : Nat := cursor.trace.steps.length

def current? (cursor : Cursor) : Option Step := cursor.trace.steps[cursor.position]?

def isFirst (cursor : Cursor) : Bool := cursor.position = 0

def isLast (cursor : Cursor) : Bool := cursor.length ≤ cursor.position + 1

def forward (cursor : Cursor) : Cursor :=
  if cursor.isLast then cursor else { cursor with position := cursor.position + 1 }

def back (cursor : Cursor) : Cursor := { cursor with position := cursor.position - 1 }

def jump (cursor : Cursor) (position : Nat) : Cursor :=
  { cursor with position := min position (cursor.length - 1) }

def reset (cursor : Cursor) : Cursor := { cursor with position := 0 }

end Cursor
end Abacus
