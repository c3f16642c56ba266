/-!
Series of calls to something that keeps a state from one call to the next. A call gives a reply
and leaves a state for the call after it.
-/
namespace Abacus

section Series

variable {σ κ ρ : Type}

def stateAfter (serve : σ → κ → ρ × σ) (state : σ) (calls : List κ) : σ :=
  calls.foldl (fun state call => (serve state call).2) state

def replies (serve : σ → κ → ρ × σ) : σ → List κ → List (ρ × σ)
  | _, [] => []
  | state, call :: later => serve state call :: replies serve (serve state call).2 later

/-- The reply to a call is the one that the state after the calls before it gives. -/
theorem getElem?_replies (serve : σ → κ → ρ × σ) (state : σ) (earlier : List κ) (call : κ)
    (later : List κ) :
    (replies serve state (earlier ++ call :: later))[earlier.length]? =
      some (serve (stateAfter serve state earlier) call) := by
  induction earlier generalizing state with
  | nil => rfl
  | cons first earlier ih => exact ih (serve state first).2

/-- What holds at the start and is kept by every call holds after every series. -/
theorem stateAfter_of_kept (serve : σ → κ → ρ × σ) (Kept : σ → Prop)
    (hstep : ∀ state call, Kept state → Kept (serve state call).2) {state : σ}
    (hstart : Kept state) (calls : List κ) : Kept (stateAfter serve state calls) := by
  induction calls generalizing state with
  | nil => exact hstart
  | cons call later ih => exact ih (hstep state call hstart)

end Series

end Abacus
