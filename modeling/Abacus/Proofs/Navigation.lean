import Abacus.Machine.Move
import Abacus.Proofs.StepLog
import Abacus.Series

/-!
Where a cursor can get to. The moves keep it between the first and the last step of its trace, and
since the steps of a trace are numbered from zero, what it shows there is the step whose number is
its position. A cursor on a trace without steps stays at zero and shows nothing.
-/
namespace Abacus

def Trace.Numbered (trace : Trace) : Prop :=
  ∀ (k : Nat) (step : Step), trace.steps[k]? = some step → step.index = k

theorem Program.numbered_trace (values : Variables) (program : Program) :
    (program.trace values).Numbered := by
  intro k step hk
  obtain ⟨hindex, -⟩ := getElem?_steps_traceFrom hk
  omega

/-- What is shown of a trace is its one step with a number, and nothing if there are no steps. -/
structure Trace.ShowsAt (trace : Trace) (position : Nat) (shown : Option Step) : Prop where
  some_iff : ∀ step, shown = some step ↔ step ∈ trace.steps ∧ step.index = position
  isSome : 0 < trace.steps.length → shown.isSome
  eq_none : trace.steps.length = 0 → shown = none

namespace Cursor

/-- The cursor is one on this trace, and not beyond its last step. -/
structure StandsIn (trace : Trace) (cursor : Cursor) : Prop where
  same : cursor.trace = trace
  position : cursor.position ≤ trace.steps.length - 1

section Moves

variable {trace : Trace} {cursor : Cursor}

theorem standsIn_cursor (trace : Trace) : StandsIn trace trace.cursor :=
  ⟨rfl, Nat.zero_le _⟩

theorem StandsIn.length_eq (h : StandsIn trace cursor) : cursor.length = trace.steps.length := by
  rw [length, h.same]

theorem isLast_iff : cursor.isLast ↔ cursor.length ≤ cursor.position + 1 := by
  rw [isLast, decide_eq_true_eq]

theorem forward_of_isLast (h : cursor.isLast) : cursor.forward = cursor := by
  rw [forward, if_pos h]

theorem forward_of_lt (h : cursor.position + 1 < cursor.length) :
    cursor.forward = { cursor with position := cursor.position + 1 } := by
  rw [forward, if_neg (by rw [isLast_iff]; omega)]

theorem back_of_first (h : cursor.position = 0) : cursor.back = cursor := by
  obtain ⟨trace, position⟩ := cursor
  cases h
  rfl

theorem StandsIn.forward (h : StandsIn trace cursor) : StandsIn trace cursor.forward := by
  have hlength := h.length_eq
  by_cases hlast : cursor.isLast
  · rwa [forward_of_isLast hlast]
  · rw [isLast_iff] at hlast
    rw [forward_of_lt (by omega)]
    exact ⟨h.same, show cursor.position + 1 ≤ _ by omega⟩

theorem StandsIn.back (h : StandsIn trace cursor) : StandsIn trace cursor.back :=
  ⟨h.same, Nat.le_trans (Nat.sub_le cursor.position 1) h.position⟩

theorem StandsIn.jump (h : StandsIn trace cursor) (position : Nat) :
    StandsIn trace (cursor.jump position) := by
  refine ⟨h.same, ?_⟩
  rw [← h.length_eq]
  exact Nat.min_le_right position (cursor.length - 1)

theorem StandsIn.reset (h : StandsIn trace cursor) : StandsIn trace cursor.reset :=
  ⟨h.same, Nat.zero_le _⟩

/-- No move takes a cursor out of its trace. -/
theorem StandsIn.serve (h : StandsIn trace cursor) (move : Move) :
    StandsIn trace (cursor.serve move).2 := by
  cases move with
  | forward => exact h.forward
  | back => exact h.back
  | jump position => exact h.jump position
  | reset => exact h.reset

theorem standsIn_stateAfter (trace : Trace) (moves : List Move) :
    StandsIn trace (stateAfter serve trace.cursor moves) :=
  stateAfter_of_kept serve (StandsIn trace) (fun _ move h => h.serve move) (standsIn_cursor trace)
    moves

theorem StandsIn.position_lt (h : StandsIn trace cursor) (hsteps : 0 < trace.steps.length) :
    cursor.position < trace.steps.length := by
  have hposition := h.position
  omega

/-- A cursor shows the step with the number of its position. -/
theorem StandsIn.showsAt (h : StandsIn trace cursor) (hnumbered : trace.Numbered) :
    trace.ShowsAt cursor.position cursor.current? := by
  rw [current?, h.same]
  constructor
  case some_iff =>
    intro step
    constructor
    · intro hstep
      exact ⟨List.mem_of_getElem? hstep, hnumbered _ step hstep⟩
    · rintro ⟨hstep, hindex⟩
      obtain ⟨k, hk⟩ := List.mem_iff_getElem?.mp hstep
      rwa [← hindex, hnumbered k step hk]
  case isSome =>
    intro hsteps
    rw [List.getElem?_eq_getElem (h.position_lt hsteps)]
    rfl
  case eq_none =>
    intro hsteps
    exact List.getElem?_eq_none (by omega)

/-- What a move shows is what the cursor shows where it then stands. -/
theorem reply_serve {move : Move} (h : move ≠ .reset) :
    (cursor.serve move).1 = .step (cursor.serve move).2.current? := by
  cases move with
  | reset => exact absurd rfl h
  | _ => rfl

end Moves

/-- How a cursor moves that stands in a trace of some length, and how it tells the ends. The only
number that a move adds to is the position; the sum is a word if the length is one. -/
structure MovesWithin (length : Nat) (cursor : Cursor) : Prop where
  forward : cursor.position + 1 < length → cursor.forward.position = cursor.position + 1
  forward_last : length ≤ cursor.position + 1 → cursor.forward = cursor
  back : 0 < cursor.position → cursor.back.position + 1 = cursor.position
  back_first : cursor.position = 0 → cursor.back = cursor
  jump : ∀ position, (cursor.jump position).position = min position (length - 1)
  reset : cursor.reset.position = 0
  isFirst : cursor.isFirst ↔ cursor.position = 0
  isLast : cursor.isLast ↔ cursor.forward.position = cursor.position
  back_forward : cursor.isLast = false → cursor.forward.back = cursor
  sum : length < 2 ^ 64 → cursor.position + 1 < 2 ^ 64

theorem StandsIn.movesWithin {trace : Trace} {cursor : Cursor} (h : StandsIn trace cursor) :
    MovesWithin trace.steps.length cursor := by
  have hposition := h.position
  rw [← h.length_eq] at hposition ⊢
  have hlast : cursor.isLast ↔ cursor.length ≤ cursor.position + 1 := isLast_iff
  constructor
  case forward =>
    intro hlt
    rw [forward_of_lt hlt]
  case forward_last =>
    intro hle
    exact forward_of_isLast (hlast.mpr hle)
  case back =>
    intro hpos
    exact Nat.sub_add_cancel hpos
  case back_first =>
    intro hzero
    exact back_of_first hzero
  case jump =>
    intro position
    rfl
  case reset => rfl
  case isFirst => rw [Cursor.isFirst, decide_eq_true_eq]
  case isLast =>
    constructor
    · intro h
      rw [forward_of_isLast h]
    · intro hsame
      refine hlast.mpr (Nat.le_of_not_lt fun hlt => ?_)
      rw [forward_of_lt hlt] at hsame
      exact absurd hsame (Nat.succ_ne_self cursor.position)
  case back_forward =>
    intro h
    have hlt : cursor.position + 1 < cursor.length := by
      have hnot : ¬ cursor.isLast := by simp [h]
      rw [hlast] at hnot
      omega
    rw [forward_of_lt hlt]
    rfl
  case sum =>
    intro hlength
    omega

/-- A cursor never leaves its trace. After any moves it stands at a step, which it shows, or at
zero if there are none. Every further move keeps to that and shows the step it comes to, going one
step on or back where there is one, or as far as it can towards a given number. -/
theorem stays_in_trace (machine : Machine) (program : Program) (moves : List Move) :
    let trace := (machine.trace program).1
    let cursor := stateAfter serve trace.cursor moves
    (0 < trace.steps.length → cursor.position < trace.steps.length) ∧
    (trace.steps.length = 0 → cursor.position = 0) ∧
    trace.ShowsAt cursor.position cursor.current? ∧
    (∀ move, move ≠ .reset → ∃ shown, (cursor.serve move).1 = .step shown ∧
      trace.ShowsAt (cursor.serve move).2.position shown) ∧
    MovesWithin trace.steps.length cursor := by
  intro trace cursor
  have hnumbered : trace.Numbered := program.numbered_trace machine.values
  have hstands : StandsIn trace cursor := standsIn_stateAfter trace moves
  refine ⟨hstands.position_lt, ?_, hstands.showsAt hnumbered, ?_, hstands.movesWithin⟩
  · intro hsteps
    have hposition := hstands.position
    omega
  · intro move hmove
    exact ⟨_, reply_serve hmove, (hstands.serve move).showsAt hnumbered⟩

end Cursor
end Abacus
