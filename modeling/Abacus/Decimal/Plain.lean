import Abacus.Decimal.ReadBack

/-!
Which runs of digits and points can be read as a number. The reader takes the digits up to the
first point and those after it, and must then be at the end; so it wants a digit on either side
and no second point.
-/
namespace Abacus.Numeral

variable {run whole fraction after rest : List Char}

def IsPlain (run : List Char) : Prop := (∃ c ∈ run, c.isDigit) ∧ run.count '.' ≤ 1

/-- A run is cut at its first point. -/
theorem exists_digits (h : ∀ c ∈ run, c.isDigit ∨ c = '.') :
    ∃ digits after, run = digits ++ after ∧ (∀ c ∈ digits, c.isDigit) ∧
      (after = [] ∨ ∃ later, after = '.' :: later) := by
  induction run with
  | nil => exact ⟨[], [], rfl, by simp, Or.inl rfl⟩
  | cons c run ih =>
    rw [List.forall_mem_cons] at h
    rcases h.1 with hdigit | rfl
    · obtain ⟨digits, after, rfl, hdigits, hafter⟩ := ih h.2
      refine ⟨c :: digits, after, rfl, ?_, hafter⟩
      rw [List.forall_mem_cons]
      exact ⟨hdigit, hdigits⟩
    · exact ⟨[], '.' :: run, rfl, by simp, Or.inr ⟨run, rfl⟩⟩

theorem count_point_digits (h : ∀ c ∈ whole, c.isDigit) : whole.count '.' = 0 := by
  rw [List.count_eq_zero]
  intro hpoint
  have hdigit := h '.' hpoint
  simp at hdigit

theorem exists_isDigit_iff (h : ∀ c ∈ whole, c.isDigit) :
    (∃ c ∈ whole, c.isDigit) ↔ whole ≠ [] := by
  cases whole with
  | nil => simp
  | cons c digits => simp [h c List.mem_cons_self]

theorem exists_decimal?_append (hwhole : ∀ c ∈ whole, c.isDigit)
    (hafter : ∀ c ∈ after.head?, c.isDigit = false)
    (hsplit : splitFraction after = (fraction, rest)) :
    (∃ decimal, decimal? (whole ++ after) = some decimal) ↔
      (whole ≠ [] ∨ fraction ≠ []) ∧ ∃ exponent, exponent? rest = some exponent := by
  simp only [decimal?, takeWhile_digits hwhole hafter, dropWhile_digits hwhole hafter, hsplit]
  cases exponent? rest with
  | none => simp
  | some exponent =>
    cases whole with
    | nil => cases fraction <;> simp
    | cons c whole => simp

/-- A decimal is read from a run exactly if it is plain. -/
theorem exists_decimal?_iff (h : ∀ c ∈ run, c.isDigit ∨ c = '.') :
    (∃ decimal, decimal? run = some decimal) ↔ IsPlain run := by
  obtain ⟨whole, after, rfl, hwhole, rfl | ⟨later, rfl⟩⟩ := exists_digits h
  · have hsplit : splitFraction [] = ([], []) := rfl
    rw [exists_decimal?_append hwhole (by simp) hsplit, IsPlain, List.append_nil,
      exists_isDigit_iff hwhole, count_point_digits hwhole]
    simp [exponent?]
  · have hlater : ∀ c ∈ later, c.isDigit ∨ c = '.' := fun c hc => h c (by simp [hc])
    obtain ⟨fraction, rest, rfl, hfraction, hrest⟩ := exists_digits hlater
    have hhead : ∀ c ∈ rest.head?, c.isDigit = false := by
      rcases hrest with rfl | ⟨last, rfl⟩ <;> simp
    have hsplit : splitFraction ('.' :: (fraction ++ rest)) = (fraction, rest) := by
      rw [splitFraction, takeWhile_digits hfraction hhead, dropWhile_digits hfraction hhead]
    rw [exists_decimal?_append hwhole (by simp) hsplit, IsPlain, List.count_append,
      List.count_cons_self, List.count_append, count_point_digits hwhole,
      count_point_digits hfraction]
    rcases hrest with rfl | ⟨last, rfl⟩
    · rw [← exists_isDigit_iff hwhole, ← exists_isDigit_iff hfraction]
      simp [exponent?, or_and_right, exists_or]
    · have hnone : exponent? ('.' :: last) = none := rfl
      simp [hnone]

/-- A run can be read exactly if it is plain. -/
theorem exists_read_iff (h : ∀ c ∈ run, c.isDigit ∨ c = '.') :
    (∃ value, read run = some value) ↔ IsPlain run := by
  have hsign : splitSign run = (false, run) := by
    unfold splitSign
    split
    · simp at h
    · simp at h
    · rfl
  -- neither a digit nor a point is a letter of the words for numbers
  have hword : ∀ word : String, 'n' ∈ word.toList →
      String.ofList (run.map Char.toLower) ≠ word := by
    rintro word hletter rfl
    rw [String.toList_ofList, List.mem_map] at hletter
    obtain ⟨c, hc, hlower⟩ := hletter
    rcases h c hc with hdigit | rfl
    · rw [NumberStyle.toLower_of_isDigit hdigit] at hlower
      subst hlower
      simp at hdigit
    · simp at hlower
  have hmagnitude : magnitude? run = (decimal? run).map Binary.ofDecimal := by
    simp only [magnitude?, hword "inf" (by decide), hword "infinity" (by decide),
      hword "nan" (by decide)]
    simp
  simp only [← exists_decimal?_iff h, ← Option.isSome_iff_exists, read, hsign, hmagnitude,
    Option.isSome_map]

end Abacus.Numeral
