import Abacus.Decimal.Shortest

/-!
Writing a number as text. Every style writes the shortest digits that read back; a style says
which of two equally near decimals is written, which magnitudes are written without an exponent,
and whether a whole number shows a decimal place.
-/
namespace Abacus

/-- The decisions of a number format. -/
structure NumberStyle where
  tie : Decimal.Tie
  /-- Whether a number whose leading digit stands for this power of ten has no exponent. -/
  positional : Int → Bool
  /-- Whether a whole number without exponent ends in `.0`. -/
  pointZero : Bool

namespace NumberStyle

/-- Numbers in messages, listings and trees: no exponent, and no decimal place on whole numbers. -/
def plain : NumberStyle := ⟨.up, fun _ => true, false⟩

/-- Numbers in documents: an exponent from `10 ^ 16` on and below `10 ^ -5`. -/
def document : NumberStyle := ⟨.toEven, fun power => -5 ≤ power && power < 16, true⟩

def exponentChars (power : Int) : List Char :=
  'e' :: (if power < 0 then '-' else '+') :: Nat.toDigits 10 power.natAbs

def decimalChars (style : NumberStyle) (d : Decimal) : List Char :=
  let digits := Nat.toDigits 10 d.digits
  let point := (digits.length : Int) + d.exponent
  if style.positional (point - 1) then
    if 0 ≤ d.exponent then
      digits ++ List.replicate d.exponent.toNat '0' ++ (if style.pointZero then ['.', '0'] else [])
    else if 0 < point then digits.take point.toNat ++ '.' :: digits.drop point.toNat
    else '0' :: '.' :: (List.replicate (-point).toNat '0' ++ digits)
  else
    let fraction := digits.drop 1
    digits.take 1 ++ (if fraction.isEmpty then [] else '.' :: fraction) ++
      exponentChars (point - 1)

def magnitudeChars (style : NumberStyle) (pattern : Nat) : List Char :=
  if pattern < Binary.infinity then style.decimalChars (Decimal.shortest style.tie pattern)
  else ['i', 'n', 'f']

def write (style : NumberStyle) (x : Float) : String :=
  if Binary.infinity < Binary.pattern x then "NaN"
  else
    let magnitude := style.magnitudeChars (Binary.pattern x)
    String.ofList (if Binary.isNegative x then '-' :: magnitude else magnitude)

def Writes (c : Char) : Prop := c.isDigit ∨ c = '.' ∨ c = '-' ∨ c = '+' ∨ c = 'e'

theorem writes_digits (n : Nat) : ∀ c ∈ Nat.toDigits 10 n, Writes c :=
  fun _ hc => Or.inl (Nat.isDigit_of_mem_toDigits (by decide) (by decide) hc)

theorem writes_zeros (n : Nat) : ∀ c ∈ List.replicate n '0', Writes c := by
  intro c hc
  rw [List.eq_of_mem_replicate hc]
  exact Or.inl rfl

theorem writes_exponentChars (power : Int) : ∀ c ∈ exponentChars power, Writes c := by
  unfold exponentChars
  simp only [List.forall_mem_cons]
  refine ⟨by simp [Writes], ?_, writes_digits power.natAbs⟩
  split <;> simp [Writes]

theorem writes_decimalChars (style : NumberStyle) (d : Decimal) :
    ∀ c ∈ style.decimalChars d, Writes c := by
  have hdigits := writes_digits d.digits
  have htake : ∀ n, ∀ c ∈ (Nat.toDigits 10 d.digits).take n, Writes c :=
    fun n c hc => hdigits c (List.mem_of_mem_take hc)
  have hdrop : ∀ n, ∀ c ∈ (Nat.toDigits 10 d.digits).drop n, Writes c :=
    fun n c hc => hdigits c (List.mem_of_mem_drop hc)
  have hpoint : Writes '.' := Or.inr (Or.inl rfl)
  have hzero : Writes '0' := Or.inl rfl
  unfold decimalChars
  dsimp only
  split
  · split
    · simp only [List.forall_mem_append]
      refine ⟨⟨hdigits, writes_zeros _⟩, ?_⟩
      split <;> simp [hpoint, hzero]
    · split
      · simp only [List.forall_mem_append, List.forall_mem_cons]
        exact ⟨htake _, hpoint, hdrop _⟩
      · simp only [List.forall_mem_append, List.forall_mem_cons]
        exact ⟨hzero, hpoint, writes_zeros _, hdigits⟩
  · simp only [List.forall_mem_append]
    refine ⟨⟨htake 1, ?_⟩, writes_exponentChars _⟩
    split
    · simp
    · simp only [List.forall_mem_cons]
      exact ⟨hpoint, hdrop 1⟩

theorem writes_write (style : NumberStyle) {x : Float} (h : Binary.isFinite x) :
    ∀ c ∈ (style.write x).toList, Writes c := by
  have hfin : Binary.pattern x < Binary.infinity := by simpa [Binary.isFinite] using h
  have hmagnitude := writes_decimalChars style (Decimal.shortest style.tie (Binary.pattern x))
  rw [write, if_neg (by omega), magnitudeChars, if_pos hfin]
  dsimp only
  rw [String.toList_ofList]
  split
  · simp only [List.forall_mem_cons]
    exact ⟨by simp [Writes], hmagnitude⟩
  · exact hmagnitude

theorem mark_mem_decimalChars {style : NumberStyle} (hpoint : style.pointZero = true)
    (d : Decimal) : '.' ∈ style.decimalChars d ∨ 'e' ∈ style.decimalChars d := by
  simp only [decimalChars, hpoint, if_true]
  split
  · left
    split
    · simp
    · split <;> simp
  · right
    simp [exponentChars]

/-- A style that shows a decimal place of whole numbers writes no number with digits alone. -/
theorem exists_not_isDigit_write (style : NumberStyle) (hpoint : style.pointZero = true)
    {x : Float} (h : Binary.isFinite x) : ∃ c ∈ (style.write x).toList, c.isDigit = false := by
  have hfin : Binary.pattern x < Binary.infinity := by simpa [Binary.isFinite] using h
  have hmark : ∃ c ∈ style.magnitudeChars (Binary.pattern x), c.isDigit = false := by
    rw [magnitudeChars, if_pos hfin]
    rcases mark_mem_decimalChars hpoint (Decimal.shortest style.tie (Binary.pattern x)) with
      hmem | hmem
    · exact ⟨'.', hmem, rfl⟩
    · exact ⟨'e', hmem, rfl⟩
  obtain ⟨c, hc, hdigit⟩ := hmark
  refine ⟨c, ?_, hdigit⟩
  rw [write, if_neg (by omega)]
  dsimp only
  rw [String.toList_ofList]
  split
  · exact List.mem_cons_of_mem _ hc
  · exact hc

end NumberStyle

def showNumber (x : Float) : String := NumberStyle.plain.write x

end Abacus
