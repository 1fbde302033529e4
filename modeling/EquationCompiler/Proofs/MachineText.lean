import EquationCompiler.Number.Machine
import EquationCompiler.Proofs.NumberText

/-!
# Machine numbers as texts

The texts of machine numbers have the form that printing relies on. A number is
below zero exactly if its sign bit is set and it is neither zero nor undefined.
-/
namespace EquationCompiler.Binary64
open Float.Model (Format UnpackedFloat)
open Float.Model.UnpackedFloat

/-- A set sign bit of a number that is not zero. -/
def isBelowZero : Binary64 → Bool
  | nan => false
  | infinite negative => negative
  | finite negative m _ => negative && m ≠ 0

variable (b : BitVec Format.binary64.numBits)

lemma toNat_unpackMantissa : (unpackMantissa b).toNat = b.toNat % 2 ^ 52 := by
  simp [unpackMantissa]

lemma toNat_unpackExponent : (unpackExponent b).toNat = b.toNat / 2 ^ 52 % 2 ^ 11 := by
  simp [unpackExponent, Nat.shiftRight_eq_div_pow]

lemma toNat_unpackSign : (unpackSign b).toNat = b.toNat / 2 ^ 63 := by
  have hb : b.toNat < 2 ^ 64 := b.isLt
  simp [unpackSign, Nat.shiftRight_eq_div_pow]
  omega

lemma unpackSign_packComponents (sign : Sign) (exponent : BitVec 11) (mantissa : BitVec 52) :
    unpackSign (packComponents Format.binary64 sign exponent mantissa) = sign.toBitVec := by
  simp only [unpackSign, packComponents, BitVec.extractLsb]
  rw [BitVec.extractLsb'_append_eq_of_le (by omega), BitVec.extractLsb'_append_eq_of_le (by omega)]
  cases sign <;> rfl

lemma ofBitVec_unpackSign :
    Sign.ofBitVec (unpackSign b) = if b.toNat / 2 ^ 63 = 1 then .negative else .positive := by
  have hb : b.toNat < 2 ^ 64 := b.isLt
  have hsign : unpackSign b = 0#1 ↔ b.toNat / 2 ^ 63 = 0 := by
    rw [← BitVec.toNat_inj, toNat_unpackSign]
    rfl
  unfold Sign.ofBitVec
  simp only [hsign]
  split_ifs <;> first | rfl | omega

/-- Whether the unpacked number is below zero. -/
def isBelow : UnpackedFloat → Bool
  | .infinity .negative | .finite .negative .. => true
  | _ => false

lemma lt_zero_eq (u : UnpackedFloat) : u.lt (.zero .positive) = isBelow u := by
  cases u with
  | notANumber => rfl
  | infinity s | finite s m e h => cases s <;> rfl
  | zero s => rfl

/-- The bits of a number below zero. -/
lemma isBelow_unpack : isBelow (unpack Format.binary64 b) = (ofBits b.toNat).isBelowZero := by
  have hspecial : unpackExponent b = -1#11 ↔ b.toNat / 2 ^ 52 % 2 ^ 11 = 2047 := by
    rw [← BitVec.toNat_inj, toNat_unpackExponent]
    rfl
  have hsmall : unpackExponent b = 0#11 ↔ b.toNat / 2 ^ 52 % 2 ^ 11 = 0 := by
    rw [← BitVec.toNat_inj, toNat_unpackExponent]
    rfl
  have hfraction : unpackMantissa b = 0#52 ↔ b.toNat % 2 ^ 52 = 0 := by
    rw [← BitVec.toNat_inj, toNat_unpackMantissa]
    rfl
  have hsign := ofBitVec_unpackSign b
  unfold unpack ofBits
  simp only [Nat.pow_eq, hspecial, hsmall, hfraction, hsign]
  generalize b.toNat / 2 ^ 52 % 2 ^ 11 = field
  generalize b.toNat / 2 ^ 63 = sign
  by_cases hnegative : sign = 1
  · simp only [hnegative, if_true]
    split_ifs <;> simp only [isBelow, isBelowZero, decide_true, Bool.true_and] <;> simp <;> omega
  · simp only [hnegative, if_false]
    split_ifs <;> simp [isBelow, isBelowZero]

lemma isBelow_unpack_positive (exponent : BitVec 11) (mantissa : BitVec 52) :
    isBelow (unpack Format.binary64
      (packComponents Format.binary64 .positive exponent mantissa)) = false := by
  have hsign : Sign.ofBitVec (Sign.toBitVec .positive) = .positive := rfl
  unfold unpack
  simp only [unpackSign_packComponents, hsign]
  split_ifs <;> rfl

/-- The opposite of a number below zero is not below zero, also after packing. -/
lemma isBelow_unpack_pack_neg {u : UnpackedFloat} (h : isBelow u = true) :
    isBelow (unpack Format.binary64 (UnpackedFloat.pack Format.binary64 u.neg)) = false := by
  cases u with
  | notANumber | zero s => cases h
  | infinity s =>
    cases s with
    | positive => cases h
    | negative => exact isBelow_unpack_positive _ _
  | finite s m e hm =>
    cases s with
    | positive => cases h
    | negative =>
      show isBelow (unpack _ (UnpackedFloat.pack _ (.finite .positive m e hm))) = false
      unfold UnpackedFloat.pack
      dsimp only
      split_ifs
      · exact isBelow_unpack_positive _ _
      · exact isBelow_unpack_positive _ _
      · exact isBelow_unpack_positive _ _

lemma toNat_leadingOne (mantissa : BitVec 52) :
    (1#1 ++ mantissa).toNat = 2 ^ 52 + mantissa.toNat := by
  have hor := Nat.two_pow_add_eq_or_of_lt mantissa.isLt 1
  rw [mul_one] at hor
  rw [BitVec.toNat_append, Nat.shiftLeft_eq, BitVec.toNat_one (by omega), one_mul, hor]

/-- The bits read as sign, significand and exponent. -/
lemma ofBits_toNat :
    ofBits b.toNat = match unpack Format.binary64 b with
      | .notANumber => nan
      | .infinity s => infinite (s == .negative)
      | .zero s => finite (s == .negative) 0 (-1074)
      | .finite s m e _ => finite (s == .negative) m e := by
  have hspecial : unpackExponent b = -1#11 ↔ b.toNat / 2 ^ 52 % 2 ^ 11 = 2047 := by
    rw [← BitVec.toNat_inj, toNat_unpackExponent]
    rfl
  have hsmall : unpackExponent b = 0#11 ↔ b.toNat / 2 ^ 52 % 2 ^ 11 = 0 := by
    rw [← BitVec.toNat_inj, toNat_unpackExponent]
    rfl
  have hfraction : unpackMantissa b = 0#52 ↔ b.toNat % 2 ^ 52 = 0 := by
    rw [← BitVec.toNat_inj, toNat_unpackMantissa]
    rfl
  have hsign := ofBitVec_unpackSign b
  have hbias : Format.binary64.exponentBias = 1023 := rfl
  have hnegative : ((if b.toNat / 2 ^ 63 = 1 then Sign.negative else .positive) == .negative) =
      decide (b.toNat / 2 ^ 63 = 1) := by
    split_ifs with h <;> simp only [h] <;> rfl
  unfold unpack ofBits
  simp only [Nat.pow_eq, hspecial, hsmall, hfraction, hsign, hbias, toNat_leadingOne,
    toNat_unpackExponent, toNat_unpackMantissa]
  split_ifs <;> simp_all

/-- What a machine number stands for is what it is unpacked to. -/
lemma ofFloat_eq (x : Float) :
    ofFloat x = match x.toModel.unpack with
      | .notANumber => nan
      | .infinity s => infinite (s == .negative)
      | .zero s => finite (s == .negative) 0 (-1074)
      | .finite s m e _ => finite (s == .negative) m e :=
  ofBits_toNat x.toBits.toBitVec

lemma eq_of_unpack {x y : Float} (h : x.toModel.unpack = y.toModel.unpack) : x = y :=
  Float.toBits_inj.mp (UInt64.toBitVec_inj.mp
    ((unpack_inj_of_valid x.toModel.valid y.toModel.valid).mp h))

lemma isNegative_eq_isBelow (x : Float) : Scalar.isNegative x = isBelow x.toModel.unpack := by
  have hzero : (0 : Float).toModel.unpack = .zero .positive := by rfl
  rw [← lt_zero_eq, ← hzero, Bool.eq_iff_iff]
  show decide (x < 0) = true ↔ x.toModel < (0 : Float).toModel
  rw [decide_eq_true_iff]
  exact decide_eq_true_iff

/-- A machine number is negative if its sign bit is set and it is neither zero nor undefined. -/
theorem isNegative_eq (x : Float) : Scalar.isNegative x = (ofFloat x).isBelowZero := by
  rw [isNegative_eq_isBelow]
  exact isBelow_unpack _

open Token

lemma isDecimal_point {ds ps : List Char} (hds : IsDigits ds) (hps : ∀ c ∈ ps, c.isDigit = true) :
    IsDecimal (ds ++ '.' :: ps) := by
  refine Or.inr ⟨(isMantissa_point hds hps).isLiteral, ?_, '.', by simp, by decide⟩
  obtain ⟨c, more, rfl⟩ := List.exists_cons_of_ne_nil hds.1
  exact ⟨c, rfl, hds.2 c (by simp)⟩

lemma isDecimal_exponent {ds sign xs : List Char} (h : IsMantissa ds)
    (hhead : ∃ c ∈ ds.head?, c.isDigit = true) (hsign : sign = [] ∨ sign = ['-'])
    (hxs : IsDigits xs) : IsDecimal (ds ++ 'e' :: (sign ++ xs)) := by
  refine Or.inr ⟨h.isLiteral_exponent hsign hxs, ?_, 'e', by simp, by decide⟩
  obtain ⟨c, hc, hdigit⟩ := hhead
  obtain ⟨more, rfl⟩ := List.head?_eq_some_iff.mp hc
  exact ⟨c, rfl, hdigit⟩

lemma isDecimal_written {ds cs : List Char} {exponent : ℤ} (hds : IsDigits ds)
    (h : Shortest.Written ds exponent cs) : IsDecimal cs := by
  have hexponent (n : ℤ) : ∃ sign xs, (toString n).toList = sign ++ xs ∧
      (sign = [] ∨ sign = ['-']) ∧ IsDigits xs := by
    rcases toList_toString_int n with h | h
    · exact ⟨[], _, h.2, Or.inl rfl, isDigits_toDigits _⟩
    · exact ⟨['-'], _, h, Or.inr rfl, isDigits_toDigits _⟩
  cases h with
  | whole k _ =>
    refine isDecimal_point ⟨by simp [hds.1], ?_⟩ isDigits_zero.2
    exact List.forall_mem_append.mpr ⟨hds.2, Shortest.isDigit_of_mem_zeros k⟩
  | point n hdigits hne _ =>
    obtain ⟨hws, hps⟩ := Shortest.isDigits_point hds.2 hdigits hne
    exact isDecimal_point hws hps
  | digit hdigits =>
    obtain ⟨sign, xs, htext, hsign, hxs⟩ := hexponent exponent
    subst hdigits
    rw [htext]
    exact isDecimal_exponent (isMantissa_digits hds) hds.head hsign hxs
  | @scientific c ps hdigits =>
    obtain ⟨sign, xs, htext, hsign, hxs⟩ := hexponent (exponent + ps.length)
    obtain ⟨hdigit, hps⟩ := List.forall_mem_cons.mp (hdigits ▸ hds.2)
    have hmantissa : IsMantissa ([c] ++ '.' :: ps) :=
      isMantissa_point ⟨by simp, by simpa using hdigit⟩ hps
    rw [htext]
    exact isDecimal_exponent hmantissa ⟨c, rfl, hdigit⟩ hsign hxs

/-- The text of a decimal has a point or an exponent. -/
theorem isDecimal_text (d : Shortest.Decimal) : IsDecimal d.text.toList :=
  isDecimal_written (isDigits_toDigits _) d.written

lemma isDecimal_text_finite (m : ℕ) (q : ℤ) : IsDecimal (finite false m q).text.toList := by
  unfold text
  simp only [Bool.false_eq_true, if_false]
  split_ifs
  · show IsDecimal (['0'] ++ '.' :: ['0'])
    exact isDecimal_point isDigits_zero isDigits_zero.2
  · rw [String.empty_append]
    exact isDecimal_text _

lemma text_finite_negative (m : ℕ) (q : ℤ) :
    (finite true m q).text.toList = '-' :: (finite false m q).text.toList := by
  unfold text
  simp only [if_true, Bool.false_eq_true, if_false]
  split_ifs
  · rfl
  · rw [String.toList_append, String.empty_append]
    rfl

/-- The text of a machine number is a decimal, with a sign if the sign bit is set. -/
lemma text_spec (b : Binary64) :
    ∃ cs, IsDecimal cs ∧ (b.text.toList = cs ∨ b.text.toList = '-' :: cs) := by
  cases b with
  | nan => exact ⟨_, Or.inl (by decide), Or.inl rfl⟩
  | infinite negative =>
    cases negative with
    | false => exact ⟨_, Or.inl (by decide), Or.inl rfl⟩
    | true => exact ⟨['i', 'n', 'f'], Or.inl (by decide), Or.inr rfl⟩
  | finite negative m q =>
    cases negative with
    | false => exact ⟨_, isDecimal_text_finite m q, Or.inl rfl⟩
    | true => exact ⟨_, isDecimal_text_finite m q, Or.inr (text_finite_negative m q)⟩

/-- A number that is neither negative nor whole has no sign. -/
lemma isDecimal_text_of_not_isBelowZero {b : Binary64} (hwhole : b.whole? = none)
    (h : b.isBelowZero = false) : IsDecimal b.text.toList := by
  cases b with
  | nan => exact Or.inl (by decide)
  | infinite negative =>
    cases negative with
    | false => exact Or.inl (by decide)
    | true => cases h
  | finite negative m q =>
    cases negative with
    | false => exact isDecimal_text_finite m q
    | true =>
      have hm : m = 0 := by simpa [isBelowZero] using h
      rw [hm] at hwhole
      simp [whole?] at hwhole

lemma whole?_nonneg {b : Binary64} {n : ℤ} (hwhole : b.whole? = some n)
    (h : b.isBelowZero = false) : 0 ≤ n := by
  cases b with
  | nan | infinite negative => cases hwhole
  | finite negative m q =>
    simp only [whole?] at hwhole
    split_ifs at hwhole with hunit hnegative
    · have hm : m = 0 := by simpa [isBelowZero, hnegative] using h
      rw [← Option.some.inj hwhole, hm]
      simp
    · rw [← Option.some.inj hwhole]
      exact Int.natCast_nonneg _

instance : Legible Float where
  isOne_one := by decide +kernel
  isNegative_neg {x} h := by
    rw [isNegative_eq_isBelow] at h ⊢
    exact isBelow_unpack_pack_neg h
  whole_nonneg {x n} h hx := by
    rw [isNegative_eq] at hx
    exact whole?_nonneg h hx
  text x := text_spec (ofFloat x)
  unsigned {x} h hx := by
    rw [isNegative_eq] at hx
    exact isDecimal_text_of_not_isBelowZero h hx

end EquationCompiler.Binary64
