import Abacus.Decimal.Binary

/-!
The shortest decimal that reads back as a given binary64 magnitude. The grids of multiples of
`10 ^ g` are searched from coarse to fine. On each grid only the two neighbours of the magnitude
can be nearest to it, and a neighbour counts when rounding it gives the magnitude back. The first
grid with a hit has the fewest digits; of two hits the nearer one is taken.
-/
namespace Abacus.Decimal

/-- Which of two equally near decimals is chosen. -/
inductive Tie where
  | up
  | toEven
deriving DecidableEq, Repr

/-- The choice between the multiples `below` and `below + 1` of a grid step, where the value
lies `rest / step` of a step above the lower one. -/
def Tie.choose (tie : Tie) (below rest step : Nat) : Nat :=
  if 2 * rest < step then below
  else if step < 2 * rest then below + 1
  else match tie with
    | .up => below + 1
    | .toEven => below + below % 2

def onGrid? (tie : Tie) (pattern : Nat) (exponent : Int) : Option Decimal :=
  let value := Binary.units pattern * 10 ^ (-exponent).toNat
  let step := 2 ^ Binary.unitExponent * 10 ^ exponent.toNat
  let readsBack (digits : Nat) : Bool := Binary.ofDecimal ⟨digits, exponent⟩ == pattern
  let below := value / step
  match readsBack below, readsBack (below + 1) with
  | true, true => some ⟨tie.choose below (value % step) step, exponent⟩
  | true, false => some ⟨below, exponent⟩
  | false, true => some ⟨below + 1, exponent⟩
  | false, false => none

/-- An exponent whose power of ten is above the magnitude, by `log 2 < 0.30103`. -/
def coarsest (pattern : Nat) : Int :=
  ((Nat.log2 (Binary.units pattern) : Int) - 1073) * 30103 / 100000 + 1

def exact (pattern : Nat) : Decimal :=
  ⟨Binary.units pattern * 5 ^ Binary.unitExponent, -Binary.unitExponent⟩

/-- The shortest decimal that reads back as a finite pattern. Seventeen digits always suffice, so
the exact value, which closes the search, is never reached. -/
def shortest (tie : Tie) (pattern : Nat) : Decimal :=
  if pattern = 0 then ⟨0, 0⟩
  else ((List.range 20).findSome? fun (i : Nat) => onGrid? tie pattern (coarsest pattern - i)).getD
    (exact pattern)

theorem Tie.choose_eq (tie : Tie) (below rest step : Nat) :
    tie.choose below rest step = below ∨ tie.choose below rest step = below + 1 := by
  unfold Tie.choose
  split
  · exact Or.inl rfl
  · split
    · exact Or.inr rfl
    · cases tie with
      | up => exact Or.inr rfl
      | toEven => show below + below % 2 = _ ∨ below + below % 2 = _; omega

theorem ofDecimal_of_onGrid? {tie : Tie} {pattern : Nat} {exponent : Int} {d : Decimal}
    (h : onGrid? tie pattern exponent = some d) : Binary.ofDecimal d = pattern := by
  unfold onGrid? at h
  dsimp only at h
  split at h
  · next hlow hhigh =>
    rw [← Option.some.inj h]
    rcases Tie.choose_eq tie _ _ _ with heq | heq <;> rw [heq]
    · exact eq_of_beq hlow
    · exact eq_of_beq hhigh
  · next hlow _ =>
    rw [← Option.some.inj h]
    exact eq_of_beq hlow
  · next _ hhigh =>
    rw [← Option.some.inj h]
    exact eq_of_beq hhigh
  · exact absurd h (by simp)

theorem le_log2_mul_five_pow {a : Nat} (h : 0 < a) (n : Nat) :
    a * 5 ^ n ≠ 0 ∧ 2 * n ≤ Nat.log2 (a * 5 ^ n) := by
  have hne : a * 5 ^ n ≠ 0 := Nat.mul_ne_zero (by omega) (Nat.ne_of_gt (Nat.pow_pos (by decide)))
  refine ⟨hne, (Nat.le_log2 hne).2 ?_⟩
  rw [Nat.pow_mul]
  exact Nat.le_trans (Nat.pow_le_pow_left (by decide) n) (Nat.le_mul_of_pos_left _ h)

theorem ofDecimal_exact {pattern : Nat} (hpos : 0 < pattern) (h : pattern < Binary.infinity) :
    Binary.ofDecimal (exact pattern) = pattern := by
  obtain ⟨hne, hlog⟩ := le_log2_mul_five_pow (Binary.units_pos hpos) Binary.unitExponent
  unfold Binary.ofDecimal exact
  rw [if_neg hne, if_neg (by dsimp only; omega), if_neg (by dsimp only; omega)]
  refine Binary.nearest_eq_of_units (denominator_pos _) h ?_
  have hten := Nat.mul_pow 5 2 Binary.unitExponent
  simp [numerator, denominator, Nat.mul_assoc, ← hten]

/-- What is chosen for a finite magnitude reads back as that magnitude. -/
theorem ofDecimal_shortest (tie : Tie) {pattern : Nat} (h : pattern < Binary.infinity) :
    Binary.ofDecimal (shortest tie pattern) = pattern := by
  unfold shortest
  split
  · next h0 => simp [Binary.ofDecimal, h0]
  · next h0 =>
    cases hfound : (List.range 20).findSome? fun (i : Nat) =>
        onGrid? tie pattern (coarsest pattern - i) with
    | none => exact ofDecimal_exact (by omega) h
    | some d =>
      obtain ⟨i, _, hi⟩ := List.exists_of_findSome?_eq_some hfound
      exact ofDecimal_of_onGrid? hi

end Abacus.Decimal
