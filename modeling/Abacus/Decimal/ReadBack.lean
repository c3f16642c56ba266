import Abacus.Decimal.Encoding
import Abacus.Decimal.Numeral
import Abacus.Decimal.Style

/-!
What is written for a finite number reads back as that number, in every style. The text of a
magnitude is read as the decimal it was written for, or, where zeros fill its exponent, as the
same decimal with more digits, which rounds to the same magnitude; and the decimal was chosen
because it rounds to the magnitude of the number.
-/
namespace Abacus

namespace Numeral

theorem takeWhile_digits {digits rest : List Char} (hdigits : ∀ c ∈ digits, c.isDigit)
    (hrest : ∀ c ∈ rest.head?, c.isDigit = false) :
    (digits ++ rest).takeWhile Char.isDigit = digits := by
  rw [List.takeWhile_append_of_pos hdigits]
  cases rest with
  | nil => simp
  | cons c rest => simp [hrest c (by simp)]

theorem dropWhile_digits {digits rest : List Char} (hdigits : ∀ c ∈ digits, c.isDigit)
    (hrest : ∀ c ∈ rest.head?, c.isDigit = false) :
    (digits ++ rest).dropWhile Char.isDigit = rest := by
  rw [List.dropWhile_append_of_pos hdigits]
  cases rest with
  | nil => simp
  | cons c rest => simp [hrest c (by simp)]

/-- Digits without a point are read as a whole number, scaled by the exponent after them. -/
theorem decimal?_whole (whole rest : List Char) (hne : whole ≠ [])
    (hwhole : ∀ c ∈ whole, c.isDigit) (hrest : ∀ c ∈ rest.head?, c.isDigit = false ∧ c ≠ '.') :
    decimal? (whole ++ rest) =
      (exponent? rest).map fun exponent => ⟨ofDigits whole, exponent⟩ := by
  have hdigit : ∀ c ∈ rest.head?, c.isDigit = false := fun c hc => (hrest c hc).1
  have hsplit : splitFraction rest = ([], rest) := by
    unfold splitFraction
    split
    · exact absurd rfl (hrest '.' (by simp)).2
    · rfl
  simp [decimal?, takeWhile_digits hwhole hdigit, dropWhile_digits hwhole hdigit, hsplit, hne]

/-- Digits around a point are read as one number, its exponent lowered by the digits after the
point. -/
theorem decimal?_point (whole fraction rest : List Char) (hne : whole ≠ [])
    (hwhole : ∀ c ∈ whole, c.isDigit) (hfraction : ∀ c ∈ fraction, c.isDigit)
    (hrest : ∀ c ∈ rest.head?, c.isDigit = false) :
    decimal? (whole ++ '.' :: (fraction ++ rest)) =
      (exponent? rest).map fun exponent =>
        ⟨ofDigits (whole ++ fraction), exponent - fraction.length⟩ := by
  have hpoint : ∀ c ∈ ('.' :: (fraction ++ rest)).head?, c.isDigit = false := by simp
  simp [decimal?, takeWhile_digits hwhole hpoint, dropWhile_digits hwhole hpoint, splitFraction,
    takeWhile_digits hfraction hrest, dropWhile_digits hfraction hrest, hne]

theorem isDigit_toDigits (n : Nat) : ∀ c ∈ Nat.toDigits 10 n, c.isDigit := fun _ hc =>
  Nat.isDigit_of_mem_toDigits (by decide) (by decide) hc

theorem isDigit_zeros (n : Nat) : ∀ c ∈ List.replicate n '0', c.isDigit := by
  intro c hc
  rw [List.eq_of_mem_replicate hc]
  rfl

theorem ofDigits_toDigits (n : Nat) : ofDigits (Nat.toDigits 10 n) = n :=
  Nat.ofDigitChars_ten_toDigits

theorem ofDigits_append_zeros (cs : List Char) (n : Nat) :
    ofDigits (cs ++ List.replicate n '0') = ofDigits cs * 10 ^ n := by
  rw [ofDigits, Nat.ofDigitChars_append, Nat.ofDigitChars_replicate_zero, Nat.mul_comm, ofDigits]

theorem ofDigits_zeros_append (n : Nat) (cs : List Char) :
    ofDigits (List.replicate n '0' ++ cs) = ofDigits cs := by
  rw [ofDigits, Nat.ofDigitChars_append, Nat.ofDigitChars_replicate_zero, Nat.mul_zero, ofDigits]

theorem exponent?_exponentChars (power : Int) :
    exponent? (NumberStyle.exponentChars power) = some power := by
  have hdigits : (Nat.toDigits 10 power.natAbs).all Char.isDigit :=
    List.all_eq_true.2 (isDigit_toDigits power.natAbs)
  have hne : (Nat.toDigits 10 power.natAbs).isEmpty = false := by simp [Nat.toDigits_ne_nil]
  unfold NumberStyle.exponentChars exponent?
  by_cases h : power < 0
  · rw [if_pos h]
    simp only [splitSign, hne, hdigits, ofDigits_toDigits]
    exact congrArg some (show -(power.natAbs : Int) = power by omega)
  · rw [if_neg h]
    simp only [splitSign, hne, hdigits, ofDigits_toDigits]
    exact congrArg some (show (power.natAbs : Int) = power by omega)

end Numeral

namespace Binary

theorem roundDiv_mul_mul (num den : Nat) {c : Nat} (h : 0 < c) :
    roundDiv (num * c) (den * c) = roundDiv num den := by
  have hlt : 2 * (num % den * c) < den * c ↔ 2 * (num % den) < den := by
    rw [← Nat.mul_assoc]
    exact Nat.mul_lt_mul_right h
  have heq : 2 * (num % den * c) = den * c ↔ 2 * (num % den) = den := by
    rw [← Nat.mul_assoc]
    exact Nat.mul_right_cancel_iff h
  unfold roundDiv
  rw [Nat.mul_div_mul_right _ _ h, Nat.mul_mod_mul_right]
  simp only [hlt, Bool.or_eq_true, decide_eq_true_eq, Bool.and_eq_true, beq_iff_eq, heq]

theorem nearest_mul_mul (num den : Nat) {c : Nat} (h : 0 < c) :
    nearest (num * c) (den * c) = nearest num den := by
  unfold nearest
  rw [Nat.mul_right_comm num c, Nat.mul_div_mul_right _ _ h]
  simp only [Nat.mul_right_comm den c, roundDiv_mul_mul _ _ h]

/-- A decimal written without exponent and with further zeros rounds to the same magnitude. -/
theorem ofDecimal_shift {d : Decimal} (h0 : 0 ≤ d.exponent) (h : ofDecimal d < infinity)
    {places : Nat} (hplaces : places ≤ 323) :
    ofDecimal ⟨d.digits * 10 ^ (d.exponent.toNat + places), -places⟩ = ofDecimal d := by
  by_cases hd : d.digits = 0
  · simp [ofDecimal, hd]
  · have hne : d.digits * 10 ^ (d.exponent.toNat + places) ≠ 0 :=
      Nat.mul_ne_zero hd (Nat.ne_of_gt (Nat.pow_pos (by decide)))
    have hmax : ¬(308 < d.exponent) := by
      intro hlt
      simp [ofDecimal, hd, hlt] at h
    have hlog := Nat.zero_le (Nat.log2 (d.digits * 10 ^ (d.exponent.toNat + places)))
    unfold ofDecimal
    rw [if_neg hne, if_neg (by dsimp only; omega), if_neg (by dsimp only; omega), if_neg hd,
      if_neg hmax, if_neg (by omega)]
    have hpos : 0 < 10 ^ places := Nat.pow_pos (by decide)
    have hnum : (d.digits * 10 ^ (d.exponent.toNat + places)) * 10 ^ (-(places : Int)).toNat =
        d.numerator * 10 ^ places := by
      rw [show (-(places : Int)).toNat = 0 by omega, Decimal.numerator, Nat.pow_add]
      simp [Nat.mul_assoc]
    have hden : 10 ^ (- -(places : Int)).toNat = d.denominator * 10 ^ places := by
      rw [Decimal.denominator, show (-d.exponent).toNat = 0 by omega]
      simp
    rw [Decimal.numerator, Decimal.denominator, hnum, hden, nearest_mul_mul _ _ hpos]

end Binary

namespace NumberStyle

open Numeral

/-- The text of a decimal is read as that decimal, or, where zeros were written for its exponent,
as the same number with more digits. -/
theorem decimal?_decimalChars (style : NumberStyle) (d : Decimal) :
    decimal? (style.decimalChars d) = some d ∨
      0 ≤ d.exponent ∧ ∃ places ≤ 1, decimal? (style.decimalChars d) =
        some ⟨d.digits * 10 ^ (d.exponent.toNat + places), -(places : Nat)⟩ := by
  obtain ⟨digits, exponent⟩ := d
  have hdigits := isDigit_toDigits digits
  have hlen : 0 < (Nat.toDigits 10 digits).length := Nat.length_toDigits_pos
  have hread := ofDigits_toDigits digits
  unfold decimalChars
  dsimp only
  generalize Nat.toDigits 10 digits = cs at hdigits hlen hread ⊢
  have hne : cs ≠ [] := List.ne_nil_of_length_pos hlen
  split
  · split
    · next hexp =>
      refine Or.inr ⟨hexp, ?_⟩
      have hwhole : ∀ c ∈ cs ++ List.replicate exponent.toNat '0', c.isDigit := by
        intro c hc
        rcases List.mem_append.1 hc with hc | hc
        · exact hdigits c hc
        · exact isDigit_zeros _ c hc
      cases style.pointZero with
      | true =>
        have h := decimal?_point (cs ++ List.replicate exponent.toNat '0') ['0'] []
          (by simp [hne]) hwhole (by simp) (by simp)
        refine ⟨1, by omega, h.trans ?_⟩
        have hzeros := ofDigits_append_zeros cs (exponent.toNat + 1)
        rw [List.replicate_succ', ← List.append_assoc] at hzeros
        rw [hzeros, hread]
        simp [exponent?]
      | false =>
        have h := decimal?_whole (cs ++ List.replicate exponent.toNat '0') []
          (by simp [hne]) hwhole (by simp)
        refine ⟨0, by omega, h.trans ?_⟩
        simp [exponent?, ofDigits_append_zeros, hread]
    · next hexp =>
      left
      split
      · next hpoint =>
        have h := decimal?_point (cs.take ((cs.length : Int) + exponent).toNat)
          (cs.drop ((cs.length : Int) + exponent).toNat) []
          (by simp [hne]; omega)
          (fun c hc => hdigits c (List.mem_of_mem_take hc))
          (fun c hc => hdigits c (List.mem_of_mem_drop hc)) (by simp)
        rw [List.append_nil] at h
        rw [h, List.take_append_drop, hread]
        simp [exponent?]
        omega
      · next hpoint =>
        have h := decimal?_point ['0']
          (List.replicate (-((cs.length : Int) + exponent)).toNat '0' ++ cs) [] (by simp)
          (by simp) (by
            intro c hc
            rcases List.mem_append.1 hc with hc | hc
            · exact isDigit_zeros _ c hc
            · exact hdigits c hc) (by simp)
        rw [List.append_nil] at h
        refine h.trans ?_
        have hzeros := (ofDigits_zeros_append 1
          (List.replicate (-((cs.length : Int) + exponent)).toNat '0' ++ cs)).trans
          (ofDigits_zeros_append _ cs)
        rw [show ['0'] = List.replicate 1 '0' from rfl, hzeros, hread]
        simp [exponent?]
        omega
  · left
    have hmark : ∀ c ∈ (exponentChars ((cs.length : Int) + exponent - 1)).head?,
        c.isDigit = false ∧ c ≠ '.' := by
      simp [exponentChars]
    cases cs with
    | nil => exact absurd rfl hne
    | cons first fraction =>
      cases fraction with
      | nil =>
        have h := decimal?_whole [first] (exponentChars (([first].length : Int) + exponent - 1))
          (by simp) hdigits hmark
        refine h.trans ?_
        rw [exponent?_exponentChars, hread, Option.map_some]
        exact congrArg (fun exponent => some (Decimal.mk digits exponent))
          (by rw [List.length_singleton]; omega)
      | cons second fraction =>
        have h := decimal?_point [first] (second :: fraction)
          (exponentChars (((first :: second :: fraction).length : Int) + exponent - 1))
          (by simp) (fun c hc => hdigits c (by simp at hc; simp [hc]))
          (fun c hc => hdigits c (List.mem_cons_of_mem _ hc)) (fun c hc => (hmark c hc).1)
        refine Eq.trans ?_ (h.trans ?_)
        · simp
        · rw [exponent?_exponentChars]
          simp [hread]
          omega

/-- The text of a decimal of finite magnitude is read as that magnitude. -/
theorem ofDecimal_decimalChars (style : NumberStyle) {d : Decimal}
    (h : Binary.ofDecimal d < Binary.infinity) :
    (decimal? (style.decimalChars d)).map Binary.ofDecimal = some (Binary.ofDecimal d) := by
  rcases decimal?_decimalChars style d with hread | ⟨hexp, places, hplaces, hread⟩
  · rw [hread]
    rfl
  · rw [hread, Option.map_some, Binary.ofDecimal_shift hexp h (by omega)]

/-- The text of a magnitude begins with a digit. -/
theorem head_decimalChars (style : NumberStyle) (d : Decimal) :
    ∃ c ∈ (style.decimalChars d).head?, c.isDigit := by
  have hdigits := isDigit_toDigits d.digits
  have hlen : 0 < (Nat.toDigits 10 d.digits).length := Nat.length_toDigits_pos
  unfold decimalChars
  dsimp only
  generalize Nat.toDigits 10 d.digits = cs at hdigits hlen ⊢
  cases cs with
  | nil => simp at hlen
  | cons c cs =>
    have hc := hdigits c (by simp)
    split
    · split
      · exact ⟨c, by simp, hc⟩
      · split
        · next hpoint =>
          obtain ⟨n, hn⟩ : ∃ n, (((c :: cs).length : Int) + d.exponent).toNat = n + 1 :=
            ⟨(((c :: cs).length : Int) + d.exponent).toNat - 1, by omega⟩
          rw [hn]
          exact ⟨c, by simp, hc⟩
        · exact ⟨'0', by simp, rfl⟩
    · exact ⟨c, by simp, hc⟩

theorem toLower_of_isDigit {c : Char} (h : c.isDigit) : c.toLower = c := by
  simp only [Char.isDigit, Bool.and_eq_true, decide_eq_true_eq, ge_iff_le] at h
  unfold Char.toLower
  split
  · next hupper =>
    have h1 := UInt32.le_iff_toNat_le.1 h.2
    have h2 := UInt32.le_iff_toNat_le.1 hupper.1
    simp at h1 h2
    omega
  · rfl

theorem magnitude?_of_head {cs : List Char} (h : ∃ c ∈ cs.head?, c.isDigit) :
    magnitude? cs = (decimal? cs).map Binary.ofDecimal := by
  obtain ⟨c, hhead, hc⟩ := h
  have hword (word : String) (hword : word.toList.head?.any Char.isDigit = false) :
      String.ofList (cs.map Char.toLower) ≠ word := by
    rintro rfl
    cases cs with
    | nil => simp at hhead
    | cons d cs =>
      simp only [List.head?_cons, Option.mem_def, Option.some.injEq] at hhead
      subst hhead
      simp [toLower_of_isDigit hc, hc] at hword
  unfold magnitude?
  simp [hword "inf" (by decide), hword "infinity" (by decide), hword "nan" (by decide)]

theorem splitSign_of_head {cs : List Char} (h : ∃ c ∈ cs.head?, c.isDigit) :
    splitSign cs = (false, cs) := by
  obtain ⟨c, hhead, hc⟩ := h
  unfold splitSign
  split
  · simp only [List.head?_cons, Option.mem_def, Option.some.injEq] at hhead
    simp [← hhead] at hc
  · simp only [List.head?_cons, Option.mem_def, Option.some.injEq] at hhead
    simp [← hhead] at hc
  · rfl

/-- What is written for a finite number reads back as that number. -/
theorem read_write (style : NumberStyle) {x : Float} (h : Binary.isFinite x) :
    Numeral.read (style.write x).toList = some x := by
  have hfin : Binary.pattern x < Binary.infinity := by simpa [Binary.isFinite] using h
  have hshortest := Decimal.ofDecimal_shortest style.tie hfin
  have hread := ofDecimal_decimalChars style (hshortest ▸ hfin)
  rw [hshortest] at hread
  have hhead := head_decimalChars style (Decimal.shortest style.tie (Binary.pattern x))
  have hx := Binary.toFloat_pattern (Nat.le_of_lt hfin)
  rw [write, if_neg (by omega), magnitudeChars, if_pos hfin]
  dsimp only
  rw [String.toList_ofList]
  split
  · next hneg =>
    rw [hneg] at hx
    simp [Numeral.read, splitSign, magnitude?_of_head hhead, hread, hx]
  · next hneg =>
    rw [Bool.not_eq_true] at hneg
    rw [hneg] at hx
    simp [Numeral.read, splitSign_of_head hhead, magnitude?_of_head hhead, hread, hx]

/-- Different finite numbers are written differently. -/
theorem write_inj (style : NumberStyle) {x y : Float} (hx : Binary.isFinite x)
    (hy : Binary.isFinite y) (h : style.write x = style.write y) : x = y := by
  have hread := read_write style hx
  rw [h, read_write style hy] at hread
  exact (Option.some.inj hread).symm

/-- The text of a finite number begins with a digit or a sign. -/
theorem head_write (style : NumberStyle) {x : Float} (h : Binary.isFinite x) :
    ∃ c ∈ (style.write x).toList.head?, c.isDigit ∨ c = '-' := by
  have hfin : Binary.pattern x < Binary.infinity := by simpa [Binary.isFinite] using h
  obtain ⟨c, hc, hdigit⟩ := head_decimalChars style (Decimal.shortest style.tie (Binary.pattern x))
  rw [write, if_neg (by omega), magnitudeChars, if_pos hfin]
  dsimp only
  rw [String.toList_ofList]
  split
  · exact ⟨'-', rfl, Or.inr rfl⟩
  · exact ⟨c, hc, Or.inl hdigit⟩

end NumberStyle

end Abacus
