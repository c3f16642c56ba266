import Abacus.Decimal.Binary

/-!
The bits of a binary64 number. A number is determined by its bits, and every bit pattern that is
not that of a NaN is the pattern of a number: the sign and the magnitude put together by `toFloat`
are found again by `isNegative` and `pattern`.
-/
namespace Abacus.Binary

open Float.Model

abbrev format : Format := Format.binary64

abbrev signField (bits : BitVec 64) : BitVec 1 := @UnpackedFloat.unpackSign format bits

abbrev exponentField (bits : BitVec 64) : BitVec 11 := @UnpackedFloat.unpackExponent format bits

abbrev significandField (bits : BitVec 64) : BitVec 52 :=
  @UnpackedFloat.unpackMantissa format bits

theorem toNat_signField (bits : BitVec 64) : (signField bits).toNat = bits.toNat / 2 ^ 63 := by
  unfold signField UnpackedFloat.unpackSign
  rw [BitVec.toNat_cast]
  have := bits.isLt
  simp [Nat.shiftRight_eq_div_pow]
  omega

theorem toNat_exponentField (bits : BitVec 64) :
    (exponentField bits).toNat = bits.toNat / 2 ^ 52 % 2 ^ 11 := by
  unfold exponentField UnpackedFloat.unpackExponent
  rw [BitVec.toNat_cast]
  simp [Nat.shiftRight_eq_div_pow]

theorem toNat_significandField (bits : BitVec 64) :
    (significandField bits).toNat = bits.toNat % 2 ^ 52 := by
  unfold significandField UnpackedFloat.unpackMantissa
  rw [BitVec.toNat_cast]
  simp

theorem toNat_packComponents (sign : UnpackedFloat.Sign) (exponent : BitVec 11)
    (significand : BitVec 52) :
    (UnpackedFloat.packComponents format sign exponent significand).toNat =
      sign.toBitVec.toNat * 2 ^ 63 + exponent.toNat * 2 ^ 52 + significand.toNat := by
  unfold UnpackedFloat.packComponents
  rw [BitVec.toNat_append, BitVec.toNat_append,
    ← Nat.shiftLeft_add_eq_or_of_lt significand.isLt,
    ← Nat.shiftLeft_add_eq_or_of_lt exponent.isLt]
  simp only [Nat.shiftLeft_eq]
  show (_ * 2 ^ 11 + _) * 2 ^ 52 + _ = _
  omega

/-- The three fields of a bit pattern make it up. -/
theorem packComponents_fields (bits : BitVec 64) :
    UnpackedFloat.packComponents format (UnpackedFloat.Sign.ofBitVec (signField bits))
      (exponentField bits) (significandField bits) = bits := by
  have hsign (b : BitVec 1) : (UnpackedFloat.Sign.ofBitVec b).toBitVec = b := by
    revert b
    decide
  have := bits.isLt
  apply BitVec.eq_of_toNat_eq
  rw [toNat_packComponents, hsign, toNat_significandField, toNat_exponentField, toNat_signField]
  omega

theorem pack_subnormal (sign : UnpackedFloat.Sign) {m : Nat} (hm : 0 < m) (hlt : m < 2 ^ 52) :
    UnpackedFloat.pack format (.finite sign m (-1074) hm) =
      UnpackedFloat.packComponents format sign 0#11 (BitVec.ofNat 52 m) := by
  have hlog := (Nat.log2_lt (by omega)).2 hlt
  unfold UnpackedFloat.pack
  dsimp only
  rw [if_neg (by decide), if_neg (show ¬Nat.log2 m + 1 = format.mantissaBits from
    fun h => by change Nat.log2 m + 1 = 53 at h; omega)]

theorem pack_normal (sign : UnpackedFloat.Sign) {m k : Nat} (hm : 0 < m) (hlo : 2 ^ 52 ≤ m)
    (hhi : m < 2 ^ 53) (hk : k < 2047) :
    UnpackedFloat.pack format (.finite sign m (k - 1075) hm) =
      UnpackedFloat.packComponents format sign (BitVec.ofNat 11 k) (BitVec.ofNat 52 m) := by
  have hlog : Nat.log2 m = 52 := (Nat.log2_eq_iff (by omega)).2 ⟨hlo, hhi⟩
  have hexp : ((k : Int) - 1075 + format.exponentBias + (52 : Nat)).toNat = k := by
    show ((k : Int) - 1075 + (1023 : Nat) + (52 : Nat)).toNat = k
    omega
  unfold UnpackedFloat.pack
  dsimp only
  rw [hexp, if_neg (show ¬2 ^ 11 ≤ k + 1 by omega),
    if_pos (show Nat.log2 m + 1 = format.mantissaBits by rw [hlog]; rfl)]

/-- Unpacking and packing change no bit pattern but those of NaNs. -/
theorem pack_unpack {bits : BitVec 64} (h : bits.toNat % 2 ^ 63 ≤ infinity) :
    UnpackedFloat.pack format (UnpackedFloat.unpack format bits) = bits := by
  have hm := toNat_significandField bits
  have he := toNat_exponentField bits
  have hall := packComponents_fields bits
  have hsignificand := (significandField bits).isLt
  change _ < 2 ^ 52 at hsignificand
  unfold UnpackedFloat.unpack
  dsimp only
  by_cases hexp : @UnpackedFloat.unpackExponent format bits = -1#_
  · rw [if_pos hexp]
    by_cases hmant : @UnpackedFloat.unpackMantissa format bits = 0#_
    · rw [if_pos hmant]
      change exponentField bits = _ at hexp
      change significandField bits = _ at hmant
      rw [hexp, hmant] at hall
      exact hall
    · refine absurd (BitVec.eq_of_toNat_eq ?_) hmant
      have hones := congrArg BitVec.toNat hexp
      rw [he] at hones
      rw [hm]
      simp only [infinity] at h
      simp at hones ⊢
      omega
  · rw [if_neg hexp]
    by_cases h0 : @UnpackedFloat.unpackExponent format bits = 0#_
    · rw [if_pos h0]
      by_cases hmant : @UnpackedFloat.unpackMantissa format bits = 0#_
      · rw [dif_pos hmant]
        change exponentField bits = _ at h0
        change significandField bits = _ at hmant
        rw [h0, hmant] at hall
        exact hall
      · rw [dif_neg hmant]
        have hpos : 0 < (significandField bits).toNat :=
          Nat.pos_of_ne_zero fun hzero => hmant (BitVec.eq_of_toNat_eq hzero)
        have hpack := pack_subnormal (UnpackedFloat.Sign.ofBitVec (signField bits)) hpos
          hsignificand
        rw [BitVec.ofNat_toNat, BitVec.setWidth_eq, ← h0, hall] at hpack
        refine Eq.trans ?_ hpack
        rw [h0]
        rfl
    · rw [if_neg h0]
      have hmant : (1#1 ++ significandField bits).toNat =
          2 ^ 52 + (significandField bits).toNat := by
        rw [BitVec.toNat_append, ← Nat.shiftLeft_add_eq_or_of_lt (BitVec.isLt _)]
        rfl
      have hmax : (exponentField bits).toNat < 2047 := by
        have hlt := (exponentField bits).isLt
        have hne : (exponentField bits).toNat ≠ 2047 :=
          fun heq => hexp (BitVec.eq_of_toNat_eq heq)
        change _ < 2 ^ 11 at hlt
        omega
      have hpack := pack_normal (UnpackedFloat.Sign.ofBitVec (signField bits))
        (m := (1#1 ++ significandField bits).toNat) (by omega) (by omega) (by omega) hmax
      refine Eq.trans ?_ (hpack.trans ?_)
      · congr 1
      · rw [BitVec.ofNat_toNat, BitVec.setWidth_eq, hmant]
        refine Eq.trans ?_ hall
        congr 1
        apply BitVec.eq_of_toNat_eq
        rw [BitVec.toNat_ofNat]
        omega

theorem toBits_ofBits {bits : UInt64} (h : bits.toNat % 2 ^ 63 ≤ infinity) :
    (Float.ofBits bits).toBits = bits := by
  show UInt64.ofBitVec (UnpackedFloat.pack format (UnpackedFloat.unpack format bits.toBitVec)) = _
  rw [pack_unpack h]

/-- Numbers with the same bits are the same. -/
theorem eq_of_toBits {x y : Float} (h : x.toBits = y.toBits) : x = y := by
  obtain ⟨⟨bits, _⟩⟩ := x
  obtain ⟨⟨bits', _⟩⟩ := y
  cases (show bits = bits' from h)
  rfl

theorem infinity_lt : infinity < 2 ^ 63 := by decide

theorem toNat_toBits_toFloat (negative : Bool) {magnitude : Nat} (h : magnitude ≤ infinity) :
    (toFloat negative magnitude).toBits.toNat =
      if negative then 2 ^ 63 + magnitude else magnitude := by
  have := infinity_lt
  unfold toFloat
  rw [toBits_ofBits]
  · rw [UInt64.toNat_ofNat']
    split <;> omega
  · rw [UInt64.toNat_ofNat']
    split <;> omega

theorem pattern_toFloat (negative : Bool) {magnitude : Nat} (h : magnitude ≤ infinity) :
    pattern (toFloat negative magnitude) = magnitude := by
  have := infinity_lt
  rw [pattern, toNat_toBits_toFloat negative h]
  split <;> omega

theorem isNegative_toFloat (negative : Bool) {magnitude : Nat} (h : magnitude ≤ infinity) :
    isNegative (toFloat negative magnitude) = negative := by
  have := infinity_lt
  rw [isNegative, toNat_toBits_toFloat negative h]
  cases negative <;> simp
  omega

/-- A number is its sign and its magnitude. -/
theorem toFloat_pattern {x : Float} (h : pattern x ≤ infinity) :
    toFloat (isNegative x) (pattern x) = x := by
  apply eq_of_toBits
  apply UInt64.toNat_inj.mp
  have hlt := x.toBits.toNat_lt
  rw [toNat_toBits_toFloat _ h, isNegative, pattern]
  by_cases hneg : 2 ^ 63 ≤ x.toBits.toNat
  · rw [if_pos (by simpa using hneg)]
    omega
  · rw [if_neg (by simpa using hneg)]
    omega

end Abacus.Binary
