/-!
Half-open stretches of a source text, counted in characters.
-/
namespace Abacus

/-- The characters from offset `start` up to, not including, offset `stop`. -/
structure Span where
  start : Nat
  stop : Nat
deriving DecidableEq, Repr

end Abacus
