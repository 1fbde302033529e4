import EquationCompiler.Proofs.NormalForm
import EquationCompiler.Proofs.Reordering
import EquationCompiler.Proofs.Rounding

/-!
# Numbers and their opposites

Not every sum or product of machine numbers is rounded. Products with one and minus one
are exact, a number and its opposite add up to zero, and a number divided by itself is
one.
-/
namespace EquationCompiler.Binary64
open Float.Model (Format UnpackedFloat totalExponent)
open Float.Model.UnpackedFloat

section
variable (b : BitVec Format.binary64.numBits)

lemma unpack_pack_unpack :
    unpack Format.binary64 (UnpackedFloat.pack Format.binary64 (unpack Format.binary64 b)) =
      unpack Format.binary64 b := by
  rw [pack_unpack]
  split_ifs with hnan
  · rw [unpack_packedNaN]
    simp only [isNaNBits, decide_eq_true_eq] at hnan
    simp [unpack, hnan]
  · rfl

/-- The bits of a number with the sign bit turned over. -/
def flipSign : BitVec Format.binary64.numBits :=
  packComponents Format.binary64 (-Sign.ofBitVec (unpackSign b)) (unpackExponent b)
    (unpackMantissa b)

lemma unpack_flipSign :
    unpack Format.binary64 (flipSign b) = (unpack Format.binary64 b).neg := by
  unfold unpack flipSign
  simp only [unpackSign_packComponents, unpackExponent_packComponents,
    unpackMantissa_packComponents, Sign.ofBitVec_toBitVec]
  split_ifs <;> rfl

/-- The exponent of a finite number is as low as its significand permits. -/
lemma targetExponent_of_unpack {s : Sign} {m : ℕ} {e : ℤ} {hm : 0 < m}
    (h : unpack Format.binary64 b = .finite s m e hm) :
    Format.binary64.targetExponent (totalExponent m e) = e := by
  rw [targetExponent_eq]
  have hmantissa : (unpackMantissa b).toNat < 2 ^ 52 := (unpackMantissa b).isLt
  have hbias : Format.binary64.exponentBias = 1023 := rfl
  unfold unpack at h
  simp only [hbias] at h
  split_ifs at h with hspecial hinfinite hsmall hzero
  · injection h with _ hm' he
    have hlog := log2_lt_of_lt hmantissa (by omega)
    rw [hm'] at hlog
    rw [hsmall] at he
    simp at he
    omega
  · injection h with _ hm' he
    have hpositive : 0 < (unpackExponent b).toNat := by
      rw [Nat.pos_iff_ne_zero]
      exact fun h0 => hsmall (BitVec.toNat_inj.mp h0)
    have hleading : m.log2 = 52 := by
      rw [← hm', Nat.log2_eq_iff (by omega), toNat_leadingOne]
      omega
    have hbits : Format.binary64.mantissaBitsWithoutImplicit = 52 := rfl
    omega

end

lemma shiftRight_mul_pow (m k : ℕ) :
    (⟨m * 2 ^ k, false, false⟩ : ExtendedMantissa) >>> k = ⟨m, false, false⟩ := by
  induction k generalizing m with
  | zero =>
    rw [pow_zero, mul_one]
    rfl
  | succ k ih =>
    rw [shiftRight_succ, pow_succ', ← mul_assoc, ih]
    simp [ExtendedMantissa.shiftRightOne]

lemma log2_mul_pow {m : ℕ} (hm : 0 < m) (k : ℕ) : (m * 2 ^ k).log2 = m.log2 + k := by
  induction k with
  | zero => rw [pow_zero, mul_one, add_zero]
  | succ k ih =>
    rw [pow_succ', mul_left_comm, Nat.log2_two_mul (by positivity), ih, add_assoc]

/-- A number that needs no more bits than there are is not rounded. -/
theorem roundWithAccuracy_exact {m : ℕ} {e : ℤ} (hm : 0 < m)
    (he : Format.binary64.targetExponent (totalExponent m e) = e) (s : Sign) (k : ℕ) :
    roundWithAccuracy Format.binary64 s (m * 2 ^ k) (e - k) .exact = .finite s m e hm := by
  have htotal : totalExponent (m * 2 ^ k) (e - k) = totalExponent m e := by
    simp only [totalExponent, log2_mul_pow hm]
    push_cast
    omega
  have hexact : (⟨m, false, false⟩ : ExtendedMantissa).roundedMantissa = m := rfl
  have hunshifted : (⟨m, false, false⟩ : ExtendedMantissa) >>> 0 = ⟨m, false, false⟩ := rfl
  simp only [roundWithAccuracy, shiftToTargetExponent, shiftToExponent, htotal, he,
    ExtendedMantissa.ofMantissaAndAccuracy, sub_sub_cancel, Int.toNat_natCast,
    shiftRight_mul_pow, sub_add_cancel, hexact, sub_self, Int.toNat_zero, hunshifted,
    Nat.cast_zero, add_zero]
  exact dif_neg hm.ne'

/-- One or minus one. -/
def unit (s : Sign) : UnpackedFloat := .finite s (2 ^ 52) (-52) (by decide)

/-- The number or its opposite. -/
def signed : Sign → UnpackedFloat → UnpackedFloat
  | .positive, u => u
  | .negative, u => u.neg

section
variable {b : BitVec Format.binary64.numBits}

lemma unpack_pack_signed (s : Sign) :
    unpack Format.binary64 (UnpackedFloat.pack Format.binary64
      (signed s (unpack Format.binary64 b))) = signed s (unpack Format.binary64 b) := by
  cases s with
  | positive => exact unpack_pack_unpack b
  | negative =>
    rw [signed, ← unpack_flipSign]
    exact unpack_pack_unpack _

/-- Multiplying by one or minus one is exact. -/
lemma unit_mul (h : (unpack Format.binary64 b).isFinite = true) (s : Sign) :
    UnpackedFloat.mul Format.binary64 (unit s) (unpack Format.binary64 b) =
      signed s (unpack Format.binary64 b) := by
  cases hb : unpack Format.binary64 b with
  | notANumber | infinity t => simp [hb, UnpackedFloat.isFinite] at h
  | zero t => cases s <;> cases t <;> rfl
  | finite t m e hm =>
    have hexact := roundWithAccuracy_exact hm (targetExponent_of_unpack b hb) (s * t) 52
    rw [mul_comm, sub_eq_neg_add] at hexact
    cases s <;> cases t <;> exact hexact

lemma mul_unit (h : (unpack Format.binary64 b).isFinite = true) (s : Sign) :
    UnpackedFloat.mul Format.binary64 (unpack Format.binary64 b) (unit s) =
      signed s (unpack Format.binary64 b) := by
  cases hb : unpack Format.binary64 b with
  | notANumber | infinity t => simp [hb, UnpackedFloat.isFinite] at h
  | zero t => cases s <;> cases t <;> rfl
  | finite t m e hm =>
    have hexact := roundWithAccuracy_exact hm (targetExponent_of_unpack b hb) (t * s) 52
    rw [sub_eq_add_neg] at hexact
    cases s <;> cases t <;> exact hexact

end

/-- A number and its opposite add up to zero. -/
lemma add_neg {u : UnpackedFloat} (h : u.isFinite = true) :
    UnpackedFloat.add Format.binary64 u u.neg = .zero .positive := by
  cases u with
  | notANumber | infinity s => cases h
  | zero s => cases s <;> rfl
  | finite s m e hm =>
    have hsum : s.apply m + (-s).apply m = 0 := by
      cases s
      · exact neg_add_cancel (m : ℤ)
      · exact add_neg_cancel (m : ℤ)
    simp [UnpackedFloat.add, UnpackedFloat.neg, decreaseExponent, hsum, UnpackedFloat.normalize]

/-- A number divided by itself is one. -/
lemma div_unpacked_self {s : Sign} {m : ℕ} {e : ℤ} (hm : 0 < m) :
    UnpackedFloat.div Format.binary64 (.finite s m e hm) (.finite s m e hm) =
      unit .positive := by
  have hsign : s / s = .positive := by cases s <;> rfl
  have htarget : Format.binary64.targetExponent 0 = -53 := by rfl
  have hexact := roundWithAccuracy_exact (m := 2 ^ 52) (e := -52) (by decide) (by rfl) .positive 1
  simp only [UnpackedFloat.div, divCore, sub_self, htarget, hsign]
  simpa [Nat.shiftLeft_eq, accuracyOfFraction, hm, unit] using hexact

lemma unpack_neg (x : Float) : (-x).toModel.unpack = x.toModel.unpack.neg :=
  unpack_pack_signed .negative

/-- A result that is a number or its opposite is packed as it is. -/
lemma eq_of_toModel {x y : Float} {s : Sign}
    (h : y.toModel = Float.Model.pack (signed s x.toModel.unpack)) :
    y.toModel.unpack = signed s x.toModel.unpack := by
  rw [h]
  exact unpack_pack_signed s

lemma isZero_iff {x : Float} : Scalar.isZero x = true ↔ ∃ s, x.toModel.unpack = .zero s := by
  have hzero : (0 : Float).toModel.unpack = .zero .positive := by rfl
  refine (same_iff (y := 0)).trans ⟨?_, fun ⟨s, hs⟩ => .inr ⟨s, .positive, hs, hzero⟩⟩
  rintro (⟨h, -⟩ | ⟨s, t, h, -⟩)
  · exact ⟨.positive, h.trans hzero⟩
  · exact ⟨s, h⟩

lemma isZero_of_toModel {x : Float} {s : Sign} (h : x.toModel = Float.Model.pack (.zero s)) :
    Scalar.isZero x = true := by
  refine isZero_iff.mpr ⟨s, ?_⟩
  rw [h]
  cases s <;> rfl

lemma unpack_one : (1 : Float).toModel.unpack = unit .positive := by rfl

lemma unpack_neg_one : (-1 : Float).toModel.unpack = unit .negative := by rfl

lemma one_mul {x : Float} (h : x.isFinite = true) : 1 * x = x := by
  have hproduct : UnpackedFloat.mul Format.binary64 (1 : Float).toModel.unpack x.toModel.unpack =
      signed .positive x.toModel.unpack := by
    rw [unpack_one]
    exact unit_mul h .positive
  exact eq_of_unpack (eq_of_toModel (s := .positive) (congrArg Float.Model.pack hproduct))

lemma neg_one_mul {x : Float} (h : x.isFinite = true) : -1 * x = -x := by
  have hproduct : UnpackedFloat.mul Format.binary64 (-1 : Float).toModel.unpack x.toModel.unpack =
      signed .negative x.toModel.unpack := by
    rw [unpack_neg_one]
    exact unit_mul h .negative
  refine eq_of_unpack (.trans ?_ (unpack_neg x).symm)
  exact eq_of_toModel (s := .negative) (congrArg Float.Model.pack hproduct)

lemma mul_neg_one {x : Float} (h : x.isFinite = true) : x * -1 = -x := by
  have hproduct : UnpackedFloat.mul Format.binary64 x.toModel.unpack (-1 : Float).toModel.unpack =
      signed .negative x.toModel.unpack := by
    rw [unpack_neg_one]
    exact mul_unit h .negative
  refine eq_of_unpack (.trans ?_ (unpack_neg x).symm)
  exact eq_of_toModel (s := .negative) (congrArg Float.Model.pack hproduct)

lemma isZero_add {x y : Float} (hx : Scalar.isZero x = true) (hy : Scalar.isZero y = true) :
    Scalar.isZero (x + y) = true := by
  obtain ⟨s, hx⟩ := isZero_iff.mp hx
  obtain ⟨t, hy⟩ := isZero_iff.mp hy
  have hsum : UnpackedFloat.add Format.binary64 x.toModel.unpack y.toModel.unpack =
      .zero (if s == t then s else .positive) := by
    rw [hx, hy]
    cases s <;> cases t <;> rfl
  exact isZero_of_toModel (congrArg Float.Model.pack hsum)

lemma isZero_add_neg {x : Float} (h : x.isFinite = true) : Scalar.isZero (x + -x) = true := by
  have hsum := add_neg (u := x.toModel.unpack) h
  rw [← unpack_neg] at hsum
  exact isZero_of_toModel (congrArg Float.Model.pack hsum)

/-- Zero is added without rounding. -/
lemma zero_add {x : Float} (h : x.isFinite = true) (hx : Scalar.isZero x = false) : 0 + x = x := by
  have hsum : UnpackedFloat.add Format.binary64 (0 : Float).toModel.unpack x.toModel.unpack =
      signed .positive x.toModel.unpack := by
    have hzero : (0 : Float).toModel.unpack = .zero .positive := by rfl
    have h : x.toModel.unpack.isFinite = true := h
    rw [hzero]
    cases hu : x.toModel.unpack with
    | notANumber | infinity s => simp [hu, UnpackedFloat.isFinite] at h
    | zero s => exact absurd (isZero_iff.mpr ⟨s, hu⟩) (by simp [hx])
    | finite s m e hm => rfl
  exact eq_of_unpack (eq_of_toModel (s := .positive) (congrArg Float.Model.pack hsum))

lemma div_self_eq_one {x : Float} (h : x.isFinite = true) (hx : Scalar.isZero x = false) :
    x / x = 1 := by
  have hquotient : UnpackedFloat.div Format.binary64 x.toModel.unpack x.toModel.unpack =
      signed .positive (1 : Float).toModel.unpack := by
    have h : x.toModel.unpack.isFinite = true := h
    rw [unpack_one]
    cases hu : x.toModel.unpack with
    | notANumber | infinity s => simp [hu, UnpackedFloat.isFinite] at h
    | zero s => exact absurd (isZero_iff.mpr ⟨s, hu⟩) (by simp [hx])
    | finite s m e hm => exact div_unpacked_self hm
  exact eq_of_unpack (eq_of_toModel (s := .positive) (congrArg Float.Model.pack hquotient))

lemma whole?_finite_not (negative : Bool) (m : ℕ) (q : ℤ) :
    (finite (!negative) m q).whole? = (finite negative m q).whole?.map (-·) := by
  simp only [whole?]
  split_ifs <;> simp_all

/-- The opposite of a whole number is whole. -/
lemma whole?_neg (x : Float) : (ofFloat (-x)).whole? = (ofFloat x).whole?.map (-·) := by
  have hbits (y : Float) : ofFloat y = ofBits y.toModel.toBits.toBitVec.toNat := rfl
  have hneg : unpack Format.binary64 (-x).toModel.toBits.toBitVec =
      (unpack Format.binary64 x.toModel.toBits.toBitVec).neg := unpack_neg x
  have hsign (s : Sign) : (-s == Sign.negative) = !(s == Sign.negative) := by cases s <;> rfl
  rw [hbits, hbits, ofBits_toNat, ofBits_toNat, hneg]
  cases unpack Format.binary64 x.toModel.toBits.toBitVec with
  | notANumber | infinity s => rfl
  | zero s =>
    simp only [UnpackedFloat.neg, hsign]
    exact whole?_finite_not _ _ _
  | finite s m e hm =>
    simp only [UnpackedFloat.neg, hsign]
    exact whole?_finite_not _ _ _

end EquationCompiler.Binary64

namespace EquationCompiler

/-- Products with one and minus one are exact, a number and its opposite add up to zero, and a number
divided by itself is one, as long as the numbers are finite. -/
class CancellingScalar (α : Type) [Scalar α] : Prop extends UnitScalar α, ComparableScalar α where
  same_self {x : α} (h : Scalar.isFinite x = true) : Scalar.same x x = true
  isFinite_one : Scalar.isFinite (Scalar.one : α) = true
  isFinite_neg {x : α} (h : Scalar.isFinite x = true) : Scalar.isFinite (-x) = true
  one_mul {x : α} (h : Scalar.isFinite x = true) : Scalar.one * x = x
  neg_one_mul {x : α} (h : Scalar.isFinite x = true) : -Scalar.one * x = -x
  mul_neg_one {x : α} (h : Scalar.isFinite x = true) : x * -Scalar.one = -x
  isZero_zero : Scalar.isZero (Scalar.zero : α) = true
  isZero_neg (x : α) : Scalar.isZero (-x) = Scalar.isZero x
  isZero_add {x y : α} (hx : Scalar.isZero x = true) (hy : Scalar.isZero y = true) :
    Scalar.isZero (x + y) = true
  zero_add {x : α} (h : Scalar.isFinite x = true) (hx : Scalar.isZero x = false) :
    Scalar.zero + x = x
  isZero_add_neg {x : α} (h : Scalar.isFinite x = true) : Scalar.isZero (x + -x) = true
  eq_one {x : α} (h : Scalar.isOne x = true) : x = Scalar.one
  whole?_neg (x : α) : Scalar.whole? (-x) = (Scalar.whole? x).map (-·)
  whole?_zero : Scalar.whole? (Scalar.zero : α) = some 0
  whole?_one : Scalar.whole? (Scalar.one : α) = some 1
  quotient?_self {x : α} (h : Scalar.isFinite x = true) (hx : Scalar.isZero x = false) :
    Scalar.quotient? x x = some Scalar.one
  isFinite_of_power? {x y : α} {n : ℕ} (h : Scalar.power? x n = some y) :
    Scalar.isFinite y = true
  exponentLimit_pos : 0 < Scalar.exponentLimit α

open Float.Model (UnpackedFloat) in
instance : CancellingScalar Float where
  same_self {x} h := by
    rw [Binary64.same_self]
    show x.toModel.unpack.isNaN = false
    have h : x.toModel.unpack.isFinite = true := h
    cases hx : x.toModel.unpack <;> simp_all [UnpackedFloat.isNaN, UnpackedFloat.isFinite]
  isFinite_one := by decide +kernel
  isFinite_neg {x} h := by
    show (-x).toModel.unpack.isFinite = true
    have h : x.toModel.unpack.isFinite = true := h
    rw [Binary64.unpack_neg]
    cases hx : x.toModel.unpack <;> simp_all [UnpackedFloat.neg, UnpackedFloat.isFinite]
  one_mul := Binary64.one_mul
  neg_one_mul := Binary64.neg_one_mul
  mul_neg_one := Binary64.mul_neg_one
  isZero_zero := by decide +kernel
  isZero_neg x := by
    rw [Bool.eq_iff_iff, Binary64.isZero_iff, Binary64.isZero_iff]
    show (∃ s, (-x).toModel.unpack = _) ↔ _
    rw [Binary64.unpack_neg]
    cases x.toModel.unpack <;> simp [UnpackedFloat.neg]
  isZero_add := Binary64.isZero_add
  zero_add := Binary64.zero_add
  isZero_add_neg := Binary64.isZero_add_neg
  eq_one {x} h := by
    obtain ⟨h, -⟩ | ⟨s, t, -, hone⟩ := Binary64.same_iff.mp h
    · exact Binary64.eq_of_unpack h
    · cases hone
  whole?_neg := Binary64.whole?_neg
  whole?_zero := by decide +kernel
  whole?_one := by decide +kernel
  quotient?_self {x} h hx := by
    show ((Binary64.ofFloat (x / x)).whole?.map fun _ => x / x) = some 1
    rw [Binary64.div_self_eq_one h hx]
    rfl
  isFinite_of_power? {x y n} h := by
    simp only [Scalar.power?] at h
    split_ifs at h with hfinite
    rwa [← Option.some.inj h]
  exponentLimit_pos := by decide

end EquationCompiler
