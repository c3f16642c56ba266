import Abacus.Machine.Cursor

/-!
The moves of a cursor as data. Every move but the return to the start shows the step that the
cursor then stands at.
-/
namespace Abacus.Cursor

inductive Move where
  | forward
  | back
  | jump (position : Nat)
  | reset
deriving DecidableEq

inductive Reply where
  | nothing
  | step (shown : Option Step)
deriving DecidableEq

def serve (cursor : Cursor) : Move → Reply × Cursor
  | .forward => (.step cursor.forward.current?, cursor.forward)
  | .back => (.step cursor.back.current?, cursor.back)
  | .jump position => (.step (cursor.jump position).current?, cursor.jump position)
  | .reset => (.nothing, cursor.reset)

end Abacus.Cursor
