import Abacus.Decimal.ReadBack
import Abacus.Json

/-!
Numbers in documents. The notation of documents allows fewer numerals than a source does: a
numeral has digits on both sides of its point, and its first digit is zero only if no other digit
comes before the point. Whatever a document writes for a finite number is such a numeral.
-/
namespace Abacus
namespace Json

def IsDigits (cs : List Char) : Prop := cs ≠ [] ∧ ∀ c ∈ cs, c.isDigit

def IsWhole (cs : List Char) : Prop := IsDigits cs ∧ (cs.head? = some '0' → cs = ['0'])

inductive IsFraction : List Char → Prop
  | none : IsFraction []
  | digits {cs : List Char} (h : IsDigits cs) : IsFraction ('.' :: cs)

inductive IsExponent : List Char → Prop
  | none : IsExponent []
  | digits {mark : Char} {sign cs : List Char} (hmark : mark = 'e' ∨ mark = 'E')
      (hsign : sign = [] ∨ sign = ['+'] ∨ sign = ['-']) (h : IsDigits cs) :
      IsExponent (mark :: (sign ++ cs))

inductive IsMagnitude : List Char → Prop
  | parts {whole fraction exponent : List Char} (hwhole : IsWhole whole)
      (hfraction : IsFraction fraction) (hexponent : IsExponent exponent) :
      IsMagnitude (whole ++ fraction ++ exponent)

inductive IsNumeral : List Char → Prop
  | positive {cs : List Char} (h : IsMagnitude cs) : IsNumeral cs
  | negative {cs : List Char} (h : IsMagnitude cs) : IsNumeral ('-' :: cs)

theorem isDigits_toDigits (n : Nat) : IsDigits (Nat.toDigits 10 n) :=
  ⟨Nat.toDigits_ne_nil, Numeral.isDigit_toDigits n⟩

theorem isDigits_append {front back : List Char} (hfront : ∀ c ∈ front, c.isDigit)
    (hback : ∀ c ∈ back, c.isDigit) (hne : front ≠ [] ∨ back ≠ []) : IsDigits (front ++ back) := by
  refine ⟨?_, fun c hc => ?_⟩
  · rcases hne with hne | hne <;> simp [hne]
  · rcases List.mem_append.mp hc with hc | hc
    · exact hfront c hc
    · exact hback c hc

theorem IsDigits.take {cs : List Char} (h : IsDigits cs) {n : Nat} (hn : 0 < n) :
    IsDigits (cs.take n) :=
  ⟨by simpa [h.1] using Nat.pos_iff_ne_zero.mp hn, fun c hc => h.2 c (List.mem_of_mem_take hc)⟩

theorem IsDigits.drop {cs : List Char} (h : IsDigits cs) {n : Nat} (hn : n < cs.length) :
    IsDigits (cs.drop n) :=
  ⟨by simpa using hn, fun c hc => h.2 c (List.mem_of_mem_drop hc)⟩

/-- The first digit of a number is zero only if the number is. -/
theorem eq_zero_of_head?_toDigits {n : Nat} (h : (Nat.toDigits 10 n).head? = some '0') :
    n = 0 := by
  induction n using Nat.strongRecOn with
  | ind n ih =>
    by_cases hn : n < 10
    · rw [Nat.toDigits_of_lt_base hn, List.head?_cons, Option.some.injEq] at h
      exact Nat.digitChar_eq_zero.mp h
    · rw [Nat.toDigits_of_base_le (by decide) (by omega), List.head?_append,
        List.head?_eq_some_head Nat.toDigits_ne_nil, Option.some_or,
        ← List.head?_eq_some_head] at h
      have := ih (n / 10) (by omega) h
      omega

theorem isWhole_toDigits (n : Nat) : IsWhole (Nat.toDigits 10 n) := by
  refine ⟨isDigits_toDigits n, fun h => ?_⟩
  rw [eq_zero_of_head?_toDigits h]
  rfl

theorem isExponent_exponentChars (power : Int) :
    IsExponent (NumberStyle.exponentChars power) := by
  have hdigits := isDigits_toDigits power.natAbs
  rw [NumberStyle.exponentChars]
  split
  · have hsign : ['-'] = [] ∨ ['-'] = ['+'] ∨ ['-'] = ['-'] := .inr (.inr rfl)
    exact .digits (.inl rfl) hsign hdigits
  · have hsign : ['+'] = [] ∨ ['+'] = ['+'] ∨ ['+'] = ['-'] := .inr (.inl rfl)
    exact .digits (.inl rfl) hsign hdigits

/-- The text of a decimal is a numeral, unless it has zeros to put after a zero. -/
theorem isMagnitude_decimalChars (style : NumberStyle) {d : Decimal}
    (hzero : d.digits = 0 → d.exponent ≤ 0) : IsMagnitude (style.decimalChars d) := by
  have hdigits := isDigits_toDigits d.digits
  have hwhole := isWhole_toDigits d.digits
  have hfirst : (Nat.toDigits 10 d.digits).head? = some '0' → d.exponent ≤ 0 :=
    fun h => hzero (eq_zero_of_head?_toDigits h)
  unfold NumberStyle.decimalChars
  dsimp only
  -- From here on it only matters that the first digit is zero for no number but zero.
  generalize Nat.toDigits 10 d.digits = digits at hdigits hwhole hfirst ⊢
  split
  · split
    · have hall : IsWhole (digits ++ List.replicate d.exponent.toNat '0') := by
        refine ⟨isDigits_append hdigits.2 (Numeral.isDigit_zeros _) (.inl hdigits.1), ?_⟩
        intro hhead
        rw [List.head?_append, List.head?_eq_some_head hdigits.1, Option.some_or,
          ← List.head?_eq_some_head] at hhead
        rw [hwhole.2 hhead, show d.exponent.toNat = 0 by have := hfirst hhead; omega]
        rfl
      have hplace : IsDigits ['0'] := by simp [IsDigits]
      split
      · simpa using IsMagnitude.parts hall (.digits hplace) .none
      · simpa using IsMagnitude.parts hall .none .none
    · split
      · next hexponent hpoint =>
        have hsome : 0 < ((digits.length : Int) + d.exponent).toNat := by omega
        have hmore : ((digits.length : Int) + d.exponent).toNat < digits.length := by omega
        generalize ((digits.length : Int) + d.exponent).toNat = point at hsome hmore ⊢
        have hbefore : IsWhole (digits.take point) := by
          refine ⟨hdigits.take hsome, fun hhead => ?_⟩
          rw [List.head?_take, if_neg (by omega)] at hhead
          rw [hwhole.2 hhead, List.length_singleton] at hmore
          omega
        simpa using IsMagnitude.parts hbefore (.digits (hdigits.drop hmore)) .none
      · have hzero : IsWhole ['0'] := by simp [IsWhole, IsDigits]
        have hafter : IsDigits
            (List.replicate (-((digits.length : Int) + d.exponent)).toNat '0' ++ digits) :=
          isDigits_append (Numeral.isDigit_zeros _) hdigits.2 (.inr hdigits.1)
        simpa using IsMagnitude.parts hzero (.digits hafter) .none
  · have hexponent := isExponent_exponentChars ((digits.length : Int) + d.exponent - 1)
    have hleading : IsWhole (digits.take 1) := by
      refine ⟨hdigits.take (by decide), fun hhead => ?_⟩
      rw [List.head?_take, if_neg (by decide)] at hhead
      rw [hwhole.2 hhead]
      rfl
    split
    · exact .parts hleading .none hexponent
    · next hmore =>
      have hfraction : IsDigits (digits.drop 1) :=
        ⟨by simpa using hmore, fun c hc => hdigits.2 c (List.mem_of_mem_drop hc)⟩
      exact .parts hleading (.digits hfraction) hexponent

/-- Zero is chosen for zero alone, and is written without an exponent of its own. -/
theorem exponent_shortest_of_zero (tie : Decimal.Tie) {pattern : Nat}
    (hfinite : pattern < Binary.infinity) (h : (Decimal.shortest tie pattern).digits = 0) :
    (Decimal.shortest tie pattern).exponent ≤ 0 := by
  have hpattern : pattern = 0 := by
    rw [← Decimal.ofDecimal_shortest tie hfinite, Binary.ofDecimal, if_pos h]
  have hshortest : Decimal.shortest tie pattern = ⟨0, 0⟩ := by
    rw [hpattern, Decimal.shortest, if_pos rfl]
  exact Int.le_of_eq (congrArg Decimal.exponent hshortest)

/-- What a document writes for a finite number is a numeral, and names the number. -/
theorem isNumeral_number {value : Float} (h : Binary.isFinite value) :
    IsNumeral (number value) ∧ Numeral.read (number value) = some value := by
  have hfinite : Binary.pattern value < Binary.infinity := by simpa [Binary.isFinite] using h
  have hmagnitude := isMagnitude_decimalChars .document
    (exponent_shortest_of_zero NumberStyle.document.tie hfinite)
  rw [number, if_pos h]
  refine ⟨?_, NumberStyle.read_write .document h⟩
  rw [NumberStyle.write, if_neg (by omega), NumberStyle.magnitudeChars, if_pos hfinite]
  dsimp only
  rw [String.toList_ofList]
  split
  · exact .negative hmagnitude
  · exact .positive hmagnitude

end Json
end Abacus
