import EquationCompiler.Proofs.Rounding

/-!
# Decimals as machine numbers

A decimal is read by multiplying its digits with a power of ten, or dividing them by
one. Products are exact before they are rounded, and quotients have enough bits and
know on which side of the middle they are. So every decimal is rounded to the nearest
machine number, and only decimals that are too large are refused.
-/
namespace EquationCompiler.Binary64
open Float.Model (Format UnpackedFloat totalExponent)
open Float.Model.UnpackedFloat

/-- Fields of a number without a sign. The least exponent field has no leading bit. -/
lemma unpack_packComponents {exponent : BitVec 11} (mantissa : BitVec 52)
    (hfield : exponent.toNat < 2047) :
    unpack Format.binary64 (packComponents Format.binary64 .positive exponent mantissa) =
      if exponent.toNat = 0 then unpacked mantissa.toNat (-1074)
      else unpacked (2 ^ 52 + mantissa.toNat) (exponent.toNat - 1075) := by
  have hspecial : exponent ≠ -1#11 := by
    rintro rfl
    exact absurd hfield (by decide)
  have hsign : Sign.ofBitVec (Sign.toBitVec .positive) = .positive := rfl
  have hbias : Format.binary64.exponentBias = 1023 := rfl
  have hzero : exponent = 0#11 ↔ exponent.toNat = 0 := by
    rw [← BitVec.toNat_inj]
    rfl
  have hempty : mantissa = 0#52 ↔ mantissa.toNat = 0 := by
    rw [← BitVec.toNat_inj]
    rfl
  unfold unpack unpacked
  simp only [unpackExponent_packComponents, unpackMantissa_packComponents,
    unpackSign_packComponents, hsign, hbias, if_neg hspecial, toNat_leadingOne, hzero, hempty]
  split_ifs with hleast
  · rfl
  · simp [hleast]
  · omega
  · rfl

/-- Numbers in the range are packed without loss. -/
theorem unpack_pack {m : ℕ} {e : ℤ} (h : IsCanonical m e) (he : e ≤ 971) :
    (Float.Model.pack (unpacked m e)).unpack = unpacked m e := by
  show unpack Format.binary64 (UnpackedFloat.pack Format.binary64 (unpacked m e)) = _
  have hsmall := h.small
  have hlow := h.low
  have hnormal := h.normal
  rcases Nat.eq_zero_or_pos m with rfl | hm
  · exact (unpack_packComponents 0#52 (by decide)).trans rfl
  · have hunpacked := unpacked_pos (e := e) hm
    have hfield : (e + Format.binary64.exponentBias + (52 : ℕ)).toNat = (e + 1075).toNat := by
      have hbias : Format.binary64.exponentBias = 1023 := rfl
      omega
    have hrange : ¬2 ^ 11 ≤ (e + 1075).toNat + 1 := by omega
    have hbits : Format.binary64.mantissaBits = 53 := rfl
    rw [hunpacked]
    unfold UnpackedFloat.pack
    dsimp only
    rw [hfield, if_neg hrange, hbits]
    have hfraction : (BitVec.ofNat 52 m).toNat = m % 2 ^ 52 := BitVec.toNat_ofNat _ _
    split_ifs with hlog
    · have hleading : 2 ^ 52 ≤ m := by
        rw [← Nat.le_log2 hm.ne']
        omega
      have hexponent : (BitVec.ofNat 11 (e + 1075).toNat).toNat = (e + 1075).toNat := by
        rw [BitVec.toNat_ofNat]
        omega
      rw [unpack_packComponents _ (by omega), if_neg (by omega), hexponent, hfraction,
        ← hunpacked]
      congr 1 <;> omega
    · have hleading : m < 2 ^ 52 := by
        rw [← Nat.log2_lt hm.ne']
        have hlog' := log2_lt_of_lt hsmall (by omega)
        omega
      rw [unpack_packComponents _ (by decide), hfraction, ← hunpacked,
        Nat.mod_eq_of_lt hleading]
      exact congrArg (unpacked m) (by omega)

/-- Greater numbers are packed as infinity. -/
lemma unpack_pack_large {m : ℕ} {e : ℤ} (h : IsCanonical m e) (he : 971 < e) :
    (Float.Model.pack (unpacked m e)).unpack = .infinity .positive := by
  have hm : 0 < m := lt_of_lt_of_le (by norm_num) (h.normal (by omega))
  show unpack Format.binary64 (UnpackedFloat.pack Format.binary64 (unpacked m e)) = _
  have hrange : 2 ^ 11 ≤ (e + Format.binary64.exponentBias + (52 : ℕ)).toNat + 1 := by
    have hbias : Format.binary64.exponentBias = 1023 := rfl
    omega
  rw [unpacked_pos hm]
  unfold UnpackedFloat.pack
  dsimp only
  rw [if_pos hrange]
  rfl

/-- What rounds to the nearest number rounds to a machine number, or is too large. -/
theorem RoundsTo.rounds {q : ℚ} {u : UnpackedFloat} {x : Float} (h : RoundsTo q u)
    (hx : x.toModel = Float.Model.pack u) : Rounds q (if x.isFinite then some x else none) := by
  obtain ⟨m, e, rfl, hcanonical, hnearest⟩ := h
  rcases le_or_gt e 971 with he | he
  · have hunpack : x.toModel.unpack = unpacked m e := by rw [hx, unpack_pack hcanonical he]
    obtain ⟨hfloat, hfinite⟩ := ofFloat_of_unpack hunpack hcanonical
    rw [if_pos hfinite]
    exact .nearest (hnearest.lt_tooLarge hcanonical he) hfloat hnearest
  · have hunpack : x.toModel.unpack = .infinity .positive := by
      rw [hx, unpack_pack_large hcanonical he]
    have hfinite : x.isFinite = false := congrArg UnpackedFloat.isFinite hunpack
    rw [hfinite]
    exact .none (hnearest.tooLarge_le hcanonical he)

lemma roundsTo_zero : RoundsTo 0 (.zero .positive) := by
  refine ⟨0, -1074, rfl, ⟨by norm_num, le_rfl, fun h => absurd h (lt_irrefl _)⟩, ?_⟩
  simpa using isNearest_self 0 (-1074)

/-- A product is exact before it is rounded, and long enough if one of the factors is. -/
lemma roundsTo_mul {m n : ℕ} {e k : ℤ} (hm : 0 < m → 2 ^ 52 ≤ m * n) (hn : 0 < n) :
    RoundsTo (m * 2 ^ e * (n * 2 ^ k))
      (UnpackedFloat.mul Format.binary64 (unpacked m e) (.finite .positive n k hn)) := by
  rcases Nat.eq_zero_or_pos m with rfl | hpos
  · rw [Nat.cast_zero, zero_mul, zero_mul]
    exact roundsTo_zero
  · have hlog : 52 ≤ (m * n).log2 := (Nat.le_log2 (Nat.mul_pos hpos hn).ne').mpr (hm hpos)
    have hvalue : (m : ℚ) * 2 ^ e * (n * 2 ^ k) = ((m * n : ℕ) : ℚ) * 2 ^ (e + k) := by
      rw [zpow_add₀ two_ne_zero]
      push_cast
      ring
    rw [hvalue, unpacked_pos hpos]
    exact roundsTo_roundWithAccuracy (describes_exact _) (by omega)

/-- A part of a unit is compared with the half of it. -/
lemma describes_inexact (m : ℕ) {part unit : ℕ} (hpart : 0 < part) (hlt : part < unit) :
    Describes (ExtendedMantissa.ofMantissaAndAccuracy m (.inexact (compare (2 * part) unit)))
      (m + part / unit) := by
  have hunit : (0 : ℚ) < unit := Nat.cast_pos.mpr (by omega)
  have hdouble : 2 * ((m : ℚ) + part / unit) = 2 * m + (2 * part : ℕ) / unit := by
    push_cast
    ring
  have hpos : 0 < ((2 * part : ℕ) : ℚ) / unit := div_pos (Nat.cast_pos.mpr (by omega)) hunit
  have htwo : ((2 * part : ℕ) : ℚ) / unit < 2 := by
    rw [div_lt_iff₀ hunit]
    exact_mod_cast Nat.mul_lt_mul_of_pos_left hlt two_pos
  unfold Describes
  rw [hdouble]
  rcases hcompare : compare (2 * part) unit with _ | _ | _
  · have hhalf : ((2 * part : ℕ) : ℚ) / unit < 1 :=
      (div_lt_one hunit).mpr (Nat.cast_lt.mpr (Nat.compare_eq_lt.mp hcompare))
    simp only [ExtendedMantissa.ofMantissaAndAccuracy, Bool.toNat_false, if_true]
    push_cast at hpos hhalf ⊢
    constructor <;> linarith
  · have hhalf : ((2 * part : ℕ) : ℚ) / unit = 1 := by
      rw [Nat.compare_eq_eq.mp hcompare]
      exact div_self hunit.ne'
    simp only [ExtendedMantissa.ofMantissaAndAccuracy, Bool.toNat_true]
    rw [hhalf]
    push_cast
    rfl
  · have hhalf : 1 < ((2 * part : ℕ) : ℚ) / unit :=
      (one_lt_div hunit).mpr (Nat.cast_lt.mpr (Nat.compare_eq_gt.mp hcompare))
    simp only [ExtendedMantissa.ofMantissaAndAccuracy, Bool.toNat_true, if_true]
    push_cast at hhalf htwo ⊢
    constructor <;> linarith

/-- The remainder says where the exact quotient is. -/
lemma describes_quotient (m : ℕ) {n : ℕ} (hn : 0 < n) :
    Describes (ExtendedMantissa.ofMantissaAndAccuracy (m / n) (accuracyOfFraction (m % n) n))
      (m / n) := by
  have hn' : (n : ℚ) ≠ 0 := Nat.cast_ne_zero.mpr hn.ne'
  have hvalue : (m : ℚ) / n = (m / n : ℕ) + (m % n : ℕ) / n := by
    rw [div_eq_iff hn', add_mul, div_mul_cancel₀ _ hn']
    exact_mod_cast (Nat.div_add_mod' m n).symm
  rw [hvalue]
  unfold accuracyOfFraction
  split_ifs with hrest
  · rw [hrest, Nat.cast_zero, zero_div, add_zero]
    exact describes_exact _
  · exact describes_inexact _ (Nat.pos_of_ne_zero hrest) (Nat.mod_lt m hn)

/-- A quotient has enough bits before it is rounded. -/
lemma le_log2_quotient {m n shift : ℕ} (hm : 0 < m) (hn : 0 < n)
    (hshift : n.log2 + 53 ≤ m.log2 + shift) : 52 ≤ (m * 2 ^ shift / n).log2 := by
  have hlarge : 2 ^ 52 ≤ m * 2 ^ shift / n := by
    rw [Nat.le_div_iff_mul_le hn]
    calc 2 ^ 52 * n ≤ 2 ^ 52 * 2 ^ (n.log2 + 1) := Nat.mul_le_mul_left _ Nat.lt_log2_self.le
      _ = 2 ^ (n.log2 + 53) := by ring
      _ ≤ 2 ^ (m.log2 + shift) := Nat.pow_le_pow_right (by omega) hshift
      _ = 2 ^ m.log2 * 2 ^ shift := pow_add _ _ _
      _ ≤ m * 2 ^ shift := Nat.mul_le_mul_right _ (Nat.log2_self_le hm.ne')
  exact (Nat.le_log2 (by omega)).mpr hlarge

lemma roundsTo_div {m n : ℕ} {e k : ℤ} (hn : 0 < n) :
    RoundsTo (m * 2 ^ e / (n * 2 ^ k))
      (UnpackedFloat.div Format.binary64 (unpacked m e) (.finite .positive n k hn)) := by
  rcases Nat.eq_zero_or_pos m with rfl | hpos
  · rw [Nat.cast_zero, zero_mul, zero_div]
    exact roundsTo_zero
  · have htarget : Format.binary64.targetExponent (totalExponent m e - totalExponent n k) =
        max ((m.log2 : ℤ) + e - (n.log2 + k) - 53) (-1074) := by
      simp only [Format.targetExponent, totalExponent, Format.mantissaBits, Format.minExponent]
      norm_num
      omega
    rw [unpacked_pos hpos]
    unfold UnpackedFloat.div divCore
    dsimp only
    rw [htarget]
    generalize hleast : min (e - k) (max ((m.log2 : ℤ) + e - (n.log2 + k) - 53) (-1074)) = least
    obtain ⟨shift, hshift⟩ : ∃ shift : ℕ, e - k = least + shift :=
      ⟨(e - k - least).toNat, by omega⟩
    have hamount : (e - k - least).toNat = shift := by omega
    have hvalue : (m : ℚ) * 2 ^ e / (n * 2 ^ k) = ((m * 2 ^ shift : ℕ) : ℚ) / n * 2 ^ least := by
      calc (m : ℚ) * 2 ^ e / (n * 2 ^ k) = m / n * (2 ^ e / 2 ^ k) := mul_div_mul_comm _ _ _ _
        _ = m / n * (2 ^ least * 2 ^ shift) := by
          rw [← zpow_sub₀ two_ne_zero, hshift, zpow_add₀ two_ne_zero, zpow_natCast]
        _ = ((m * 2 ^ shift : ℕ) : ℚ) / n * 2 ^ least := by
          push_cast
          ring
    rw [hvalue, hamount, Nat.shiftLeft_eq]
    refine roundsTo_roundWithAccuracy (describes_quotient _ hn) ?_
    by_cases hlow : least ≤ -1074
    · exact le_max_of_le_right hlow
    · have hlog : 52 ≤ (m * 2 ^ shift / n).log2 := le_log2_quotient hpos hn (by omega)
      omega

lemma tooLarge_le_of_lt {m : ℕ} {e : ℤ} (hm : 0 < m) (he : 2 ^ 11 < e) :
    tooLarge ≤ m * 10 ^ e := by
  obtain ⟨j, rfl⟩ := Int.eq_ofNat_of_zero_le (show 0 ≤ e by omega)
  have hone : (1 : ℚ) ≤ m := Nat.one_le_cast.mpr hm
  have hhalf : (1024 : ℤ) = 970 + (54 : ℕ) := rfl
  calc tooLarge ≤ 2 ^ 54 * 2 ^ (970 : ℤ) :=
        mul_le_mul_of_nonneg_right (by norm_num) (two_zpow_pos 970).le
    _ = 2 ^ (1024 : ℤ) := by rw [hhalf, zpow_add₀ two_ne_zero, zpow_natCast, mul_comm]
    _ ≤ 2 ^ (j : ℤ) := zpow_le_zpow_right₀ one_le_two (by omega)
    _ ≤ 10 ^ (j : ℤ) := by
      rw [zpow_natCast, zpow_natCast]
      exact pow_le_pow_left₀ (by norm_num) (by norm_num) j
    _ ≤ m * 10 ^ (j : ℤ) := le_mul_of_one_le_left (zpow_pos (by norm_num) _).le hone

/-- Less than half of the least machine number is rounded to zero. -/
lemma roundsTo_zero_of_lt {m : ℕ} {e : ℤ} (he : e < -(2 ^ 11 + m.log2)) :
    RoundsTo (m * 10 ^ e) (.zero .positive) := by
  obtain ⟨j, hj⟩ : ∃ j : ℕ, e = -j := ⟨(-e).toNat, by omega⟩
  have hhalf : (-1075 : ℤ) = -1 + -1074 := rfl
  have hm : (m : ℚ) ≤ 2 ^ (m.log2 + 1) := by exact_mod_cast Nat.lt_log2_self.le
  have hten : (2 : ℚ) ^ j ≤ 10 ^ j := pow_le_pow_left₀ (by norm_num) (by norm_num) j
  have hbound : (m : ℚ) * (10 : ℚ) ^ e ≤ 1 / 2 * 2 ^ (-1074 : ℤ) :=
    calc (m : ℚ) * (10 : ℚ) ^ e = m / 10 ^ j := by rw [hj, zpow_neg, zpow_natCast, div_eq_mul_inv]
      _ ≤ 2 ^ (m.log2 + 1) / 2 ^ j := div_le_div₀ (by positivity) hm (by positivity) hten
      _ = 2 ^ ((m.log2 + 1 : ℕ) - j : ℤ) := by
        rw [zpow_sub₀ two_ne_zero, zpow_natCast, zpow_natCast]
      _ ≤ 2 ^ (-1075 : ℤ) := zpow_le_zpow_right₀ one_le_two (by omega)
      _ = 1 / 2 * 2 ^ (-1074 : ℤ) := by rw [hhalf, zpow_add₀ two_ne_zero, zpow_neg_one, one_div]
  have hunit := two_zpow_pos (-1074)
  have hvalue : (m : ℚ) * (10 : ℚ) ^ e = m * (10 : ℚ) ^ e / 2 ^ (-1074 : ℤ) * 2 ^ (-1074 : ℤ) :=
    (div_mul_cancel₀ _ hunit.ne').symm
  have hnonneg : (0 : ℚ) ≤ m * (10 : ℚ) ^ e / 2 ^ (-1074 : ℤ) := by positivity
  have hrounded : IsRounded ((m : ℚ) * (10 : ℚ) ^ e / 2 ^ (-1074 : ℤ)) 0 := by
    refine ⟨?_, fun _ => Even.zero⟩
    rw [Nat.cast_zero, zero_sub, abs_neg, abs_of_nonneg hnonneg]
    exact (div_le_iff₀ hunit).mpr hbound
  refine ⟨0, -1074, rfl, ⟨by norm_num, le_rfl, fun h => absurd h (lt_irrefl _)⟩, ?_⟩
  rw [hvalue]
  exact hrounded.isNearest fun h => absurd h (lt_irrefl _)

section
variable {m : ℕ} {e : ℤ}

lemma decimal_eq_mul (he : 0 ≤ e) : (m : ℚ) * (10 : ℚ) ^ e =
    (m <<< 53 : ℕ) * 2 ^ (-53 : ℤ) * ((10 ^ e.toNat : ℕ) * 2 ^ (0 : ℤ)) := by
  have hpower : (10 : ℚ) ^ e = 10 ^ e.toNat := by rw [← zpow_natCast, Int.toNat_of_nonneg he]
  rw [hpower, Nat.shiftLeft_eq]
  push_cast
  field_simp
  norm_num

lemma decimal_eq_div (he : e ≤ 0) : (m : ℚ) * (10 : ℚ) ^ e =
    m * 2 ^ (0 : ℤ) / ((10 ^ (-e).toNat : ℕ) * 2 ^ (0 : ℤ)) := by
  have hpower : (10 : ℚ) ^ e = (10 ^ (-e).toNat)⁻¹ := by
    rw [← zpow_natCast, Int.toNat_of_nonneg (by omega), zpow_neg, inv_inv]
  rw [hpower, zpow_zero, mul_one, mul_one, ← div_eq_mul_inv]
  push_cast
  rfl

/-- The digits are shifted so far that their product with a power of ten has enough bits. -/
lemma le_shiftLeft_mul (hm : m ≠ 0) : 2 ^ 52 ≤ m <<< 53 * 10 ^ e.toNat := by
  refine le_trans ?_ (Nat.le_mul_of_pos_right _ (Nat.pow_pos (by norm_num)))
  rw [Nat.shiftLeft_eq]
  omega

/-- A decimal is computed from its digits, unless it is far out of range. -/
theorem rounds_of_toModel {x : Float}
    (hx : x.toModel = Float.Model.pack (UnpackedFloat.ofScientific Format.binary64 m e)) :
    Rounds (m * 10 ^ e) (if x.isFinite then some x else none) := by
  unfold UnpackedFloat.ofScientific at hx
  split_ifs at hx with hm hlarge hsmall hsign
  · rw [hm, Nat.cast_zero, zero_mul]
    exact roundsTo_zero.rounds hx
  · -- Far above the range.
    have hfinite : x.isFinite = false := by
      rw [show x.isFinite = x.toModel.isFinite from rfl, hx]
      rfl
    rw [hfinite]
    exact .none (tooLarge_le_of_lt (Nat.pos_of_ne_zero hm) hlarge)
  · -- Far below the least number.
    exact (roundsTo_zero_of_lt hsmall).rounds hx
  · have hten : 0 < 10 ^ e.toNat := Nat.pow_pos (by norm_num)
    have hshifted : 0 < m <<< 53 := by
      rw [Nat.shiftLeft_eq]
      exact Nat.mul_pos (Nat.pos_of_ne_zero hm) (Nat.two_pow_pos 53)
    have hproduct := roundsTo_mul (e := -53) (k := 0) (fun _ => le_shiftLeft_mul (e := e) hm) hten
    rw [unpacked_pos hshifted, ← decimal_eq_mul hsign] at hproduct
    exact hproduct.rounds hx
  · have hten : 0 < 10 ^ (-e).toNat := Nat.pow_pos (by norm_num)
    have hquotient := roundsTo_div (m := m) (e := 0) (k := 0) hten
    rw [unpacked_pos (Nat.pos_of_ne_zero hm), ← decimal_eq_div (by omega)] at hquotient
    exact hquotient.rounds hx

end

lemma roundsTo_normalize {m : ℕ} (hm : m < 2 ^ 53) :
    RoundsTo m (UnpackedFloat.normalize Format.binary64 (m : ℤ) 0 .positive) := by
  unfold UnpackedFloat.normalize
  split
  · next hnegative => exact absurd (Int.compare_eq_lt.mp hnegative) (by omega)
  · next hzero =>
    have hm0 : m = 0 := by exact_mod_cast Int.compare_eq_eq.mp hzero
    rw [hm0, Nat.cast_zero]
    exact roundsTo_zero
  · next hpositive =>
    have hpos : m ≠ 0 := by
      have := Int.compare_eq_gt.mp hpositive
      omega
    have hlog := log2_lt_of_lt hm (by omega)
    have hshift : (0 - Format.binary64.targetExponent (totalExponent m 0)).toNat =
        52 - m.log2 := by
      rw [targetExponent_eq]
      omega
    have hvalue : (m : ℚ) =
        ((m * 2 ^ (52 - m.log2) : ℕ) : ℚ) * 2 ^ (0 - (52 - m.log2 : ℕ) : ℤ) := by
      rw [zero_sub, zpow_neg, zpow_natCast, Nat.cast_mul, Nat.cast_pow, Nat.cast_ofNat,
        mul_inv_cancel_right₀ (by positivity)]
    have hlong : 2 ^ 52 ≤ m * 2 ^ (52 - m.log2) :=
      calc 2 ^ 52 = 2 ^ m.log2 * 2 ^ (52 - m.log2) := by
            rw [← pow_add, Nat.add_sub_cancel' (by omega)]
        _ ≤ m * 2 ^ (52 - m.log2) := Nat.mul_le_mul_right _ (Nat.log2_self_le hpos)
    have hlogLong := (Nat.le_log2 (by omega)).mpr hlong
    unfold UnpackedFloat.round decreaseExponent
    dsimp only
    rw [Int.toNat_natCast, hshift, Nat.shiftLeft_eq, hvalue]
    exact roundsTo_roundWithAccuracy (describes_exact _) (by omega)

lemma natCast_lt_tooLarge {m : ℕ} (hm : m < 2 ^ 53) : (m : ℚ) < tooLarge :=
  calc (m : ℚ) < 2 ^ 53 := by exact_mod_cast hm
    _ ≤ (2 ^ 54 - 1) * 1 := by norm_num
    _ ≤ tooLarge :=
      mul_le_mul_of_nonneg_left (one_le_zpow₀ one_le_two (by norm_num)) (by norm_num)

/-- A natural number of at most 53 bits is a machine number. -/
lemma exists_unpack_toFloat {m : ℕ} (hm : m < 2 ^ 53) :
    ∃ n e, m.toUInt64.toFloat.toModel.unpack = unpacked n e ∧ (n : ℚ) * 2 ^ e = m := by
  have htoNat : m.toUInt64.toNat = m := by
    rw [Nat.toUInt64_eq, UInt64.toNat_ofNat_of_lt' (by simp [UInt64.size]; omega)]
  have hmodel : m.toUInt64.toFloat.toModel = Float.Model.pack
      (UnpackedFloat.normalize Format.binary64 (m.toUInt64.toNat : ℤ) 0 .positive) := rfl
  obtain ⟨n, e, hunpacked, hcanonical, hnearest⟩ := roundsTo_normalize hm
  have he : e ≤ 971 := by
    by_contra he
    exact (natCast_lt_tooLarge hm).not_ge (hnearest.tooLarge_le hcanonical (not_le.mp he))
  rw [htoNat, hunpacked] at hmodel
  refine ⟨n, e, by rw [hmodel, unpack_pack hcanonical he], ?_⟩
  have hclosest := hnearest.closest m 0 hm (by norm_num)
  rw [zpow_zero, mul_one, sub_self, abs_zero] at hclosest
  exact sub_eq_zero.mp (abs_eq_zero.mp (le_antisymm hclosest (abs_nonneg _)))

/-- The significand of a power of ten that is kept in a table. -/
def IsPower (k : ℕ) : UnpackedFloat → Bool
  | .finite .positive m e _ => 2 ^ 52 ≤ m && m * 2 ^ e.toNat == 10 ^ k * 2 ^ (-e).toNat
  | _ => false

lemma isPower_table : ∀ k : Fin Float.exactlyRepresentablePowersOfTen.size,
    IsPower k Float.exactlyRepresentablePowersOfTen[k].toModel.unpack = true := by
  decide +kernel

lemma eq_of_isPower {k : ℕ} {u : UnpackedFloat} (h : IsPower k u = true) :
    ∃ m e hm, u = .finite .positive m e hm ∧ 2 ^ 52 ≤ m ∧ (m : ℚ) * 2 ^ e = 10 ^ k := by
  cases u with
  | notANumber | infinity s | zero s => cases h
  | finite s m e hm =>
    cases s with
    | negative => cases h
    | positive =>
      simp only [IsPower, Bool.and_eq_true, decide_eq_true_eq, beq_iff_eq] at h
      obtain ⟨hlong, hpower⟩ := h
      refine ⟨m, e, hm, rfl, hlong, ?_⟩
      have hexponent : (2 : ℚ) ^ e = 2 ^ e.toNat / 2 ^ (-e).toNat := by
        rw [← zpow_natCast, ← zpow_natCast, ← zpow_sub₀ two_ne_zero]
        congr 1
        omega
      rw [hexponent, ← mul_div_assoc, div_eq_iff (by positivity)]
      exact_mod_cast hpower

/-- The product with a power of ten or the quotient is rounded once only. -/
lemma rounds_small {m : ℕ} {e : ℤ} (hm : m < 2 ^ 53)
    (he : e.natAbs < Float.exactlyRepresentablePowersOfTen.size) {x : Float}
    (hx : x = if e < 0 then m.toUInt64.toFloat / Float.exactlyRepresentablePowersOfTen[e.natAbs]
      else m.toUInt64.toFloat * Float.exactlyRepresentablePowersOfTen[e.natAbs]) :
    Rounds (m * 10 ^ e) (if x.isFinite then some x else none) := by
  obtain ⟨n, f, hdigits, hvalue⟩ := exists_unpack_toFloat hm
  obtain ⟨p, k, hp, htable, hlong, hpower⟩ := eq_of_isPower (isPower_table ⟨e.natAbs, he⟩)
  change Float.exactlyRepresentablePowersOfTen[e.natAbs].toModel.unpack = _ at htable
  change (p : ℚ) * 2 ^ k = 10 ^ e.natAbs at hpower
  generalize Float.exactlyRepresentablePowersOfTen[e.natAbs] = power at hx htable
  generalize m.toUInt64.toFloat = digits at hx hdigits
  split_ifs at hx with hnegative
  · have hmodel : x.toModel = Float.Model.pack (UnpackedFloat.div Format.binary64
        digits.toModel.unpack power.toModel.unpack) := by
      rw [hx]
      rfl
    have hquotient : (m : ℚ) * (10 : ℚ) ^ e = n * 2 ^ f / (p * 2 ^ k) := by
      rw [hvalue, hpower, div_eq_mul_inv, ← zpow_natCast, ← zpow_neg]
      congr 2
      omega
    rw [hdigits, htable] at hmodel
    refine RoundsTo.rounds ?_ hmodel
    rw [hquotient]
    exact roundsTo_div hp
  · have hmodel : x.toModel = Float.Model.pack (UnpackedFloat.mul Format.binary64
        digits.toModel.unpack power.toModel.unpack) := by
      rw [hx]
      rfl
    have hproduct : (m : ℚ) * (10 : ℚ) ^ e = n * 2 ^ f * (p * 2 ^ k) := by
      rw [hvalue, hpower, ← zpow_natCast]
      congr 2
      omega
    rw [hdigits, htable] at hmodel
    refine RoundsTo.rounds ?_ hmodel
    rw [hproduct]
    exact roundsTo_mul (fun hn => hlong.trans (Nat.le_mul_of_pos_left p hn)) hp

/-- A decimal is read as the nearest machine number. -/
theorem rounds_ofDecimal? (m : ℕ) (e : ℤ) : Rounds (m * 10 ^ e) (ofDecimal? m e) := by
  unfold ofDecimal?
  dsimp only
  generalize hx : Float.ofScientific m (e < 0) e.natAbs = x
  unfold Float.ofScientific at hx
  simp only [decide_eq_true_eq] at hx
  by_cases hsmall : m < 2 ^ 53 ∧ e.natAbs ≤ 22
  · rw [dif_pos hsmall] at hx
    exact rounds_small hsmall.1 (Nat.lt_succ_of_le hsmall.2) hx.symm
  · have hexponent : (if e < 0 then Int.negOfNat e.natAbs else Int.ofNat e.natAbs) = e := by
      split_ifs with hnegative
      · rw [Int.negOfNat_eq, Int.ofNat_eq_natCast]
        omega
      · exact Int.natAbs_of_nonneg (not_lt.mp hnegative)
    rw [dif_neg hsmall, hexponent] at hx
    refine rounds_of_toModel ?_
    rw [← hx]
    rfl

/-- The greatest significand, a one before it and half a unit after it: numbers below this are not
rounded up to the next power of two. -/
@[irreducible] def roundingBound (places : ℕ) : ℕ := (2 ^ 54 - 1) * 2 ^ places

lemma roundingBound_pos (places : ℕ) : 0 < roundingBound places := by
  rw [roundingBound]
  exact Nat.mul_pos (by omega) (Nat.two_pow_pos _)

lemma roundingBound_add (j k : ℕ) : roundingBound (j + k) = roundingBound j * 2 ^ k := by
  rw [roundingBound, roundingBound, pow_add, mul_assoc]

lemma lt_roundingBound {m k places : ℕ} (hm : m < 2 ^ (53 + k)) (hk : k ≤ places) :
    m < roundingBound places := by
  calc m < 2 ^ 53 * 2 ^ k := by rwa [← pow_add]
    _ ≤ roundingBound places := by
      rw [roundingBound]
      exact Nat.mul_le_mul (by omega) (Nat.pow_le_pow_right (by omega) hk)

lemma cast_roundingBound : (roundingBound 970 : ℚ) = tooLarge := by
  have hplaces : (970 : ℤ) = (970 : ℕ) := rfl
  rw [roundingBound, tooLarge, hplaces, zpow_natCast, Nat.cast_mul, Nat.cast_pow, Nat.cast_ofNat]
  generalize (2 : ℚ) ^ 970 = unit
  norm_num

/-- The decimal is not too large. -/
def DecimalBounded (digits : ℕ) (exponent : ℤ) : Prop :=
  digits * 10 ^ exponent.toNat < roundingBound 970 * 10 ^ (-exponent).toNat

lemma DecimalBounded.lt_tooLarge {c : ℕ} {e : ℤ} (h : DecimalBounded c e) :
    (c : ℚ) * (10 : ℚ) ^ e < tooLarge := by
  have hexponent : (10 : ℚ) ^ e = 10 ^ e.toNat / 10 ^ (-e).toNat := by
    rw [← zpow_natCast, ← zpow_natCast, ← zpow_sub₀ (by norm_num)]
    congr 1
    omega
  rw [hexponent, ← mul_div_assoc, div_lt_iff₀ (by positivity), ← cast_roundingBound]
  exact_mod_cast h

/-- A decimal that is not too large is not refused. -/
theorem ofDecimal?_isSome {c : ℕ} {e : ℤ} (h : DecimalBounded c e) :
    (ofDecimal? c e).isSome = true := by
  have hrounds := rounds_ofDecimal? c e
  cases hx : ofDecimal? c e with
  | some x => rfl
  | none =>
    rw [hx] at hrounds
    cases hrounds with
    | none hq => exact absurd h.lt_tooLarge hq.not_gt

end EquationCompiler.Binary64
